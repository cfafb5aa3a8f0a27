import TickCircuit.Proofs.Description.LinkText
import TickCircuit.Proofs.Grammar.RoundTrip
import TickCircuit.Proofs.Port.Signal
import TickCircuit.Transform.Builtin
/-!
The labels of values. A label that was read from a text has no bracket and no colon, and only at the
root of the text it may have a comma; but values are taken apart and put together with their labels.
Main statement: a value of such labels reads back from its own text, as far as its size allows,
exactly if no label below its root has a comma (`Spelled.parse_print`).
-/
namespace TickCircuit
open Grammar Text

theorem Grammar.isLabel_false_iff {label : List Char} :
    IsLabel false label ↔ IsLabel true label ∧ ',' ∉ label := by
  constructor
  · intro h
    exact ⟨⟨h.ne_nil, h.trim_eq, h.bracket, h.colon, nofun⟩, h.comma rfl⟩
  · intro h
    exact ⟨h.1.ne_nil, h.1.trim_eq, h.1.bracket, h.1.colon, fun _ => h.2⟩

theorem Grammar.IsLabel.at_root {root : Bool} {label : List Char} (h : IsLabel root label) :
    IsLabel true label := by
  cases root with
  | false => exact (isLabel_false_iff.mp h).1
  | true => exact h

namespace Value

mutual
def labels : Value → List String
  | .bit l _ => l.toList
  | .collection l vs => l.toList ++ labelsAll vs
def labelsAll : List Value → List String
  | [] => []
  | v :: vs => labels v ++ labelsAll vs
end

def innerLabels (v : Value) : List String := labelsAll (v.children?.getD [])

/-- Each label of the tree can stand at the root of a text. -/
def Spelled (v : Value) : Prop := ∀ l ∈ v.labels, IsLabel true l.toList

/-- At every depth, a collection has no more children, and no more nodes below it, than a repetition
may stand for. -/
inductive Small : Value → Prop
  | bit {label high} : Small (.bit label high)
  | collection {label children} (items : ∀ v ∈ children, Small v)
    (count : children.length ≤ maxCount) (nodes : nodeCountAll children ≤ maxNodes) :
    Small (.collection label children)

theorem mem_labelsAll {l : String} {vs : List Value} :
    l ∈ labelsAll vs ↔ ∃ v ∈ vs, l ∈ v.labels := by
  induction vs with
  | nil => simp [labelsAll]
  | cons v vs ih => simp [labelsAll, ih]

theorem mem_labels {l : String} {v : Value} :
    l ∈ v.labels ↔ v.label = some l ∨ l ∈ v.innerLabels := by
  cases v with
  | bit m b => simp [labels, label, innerLabels, children?, labelsAll]
  | collection m vs => simp [labels, label, innerLabels, children?]

theorem Small.bounded {v : Value} (h : v.Small) : v.Bounded := by
  induction h with
  | bit => exact .bit
  | @collection label children _ count nodes ih =>
    refine .collection ih fun n v hv => ?_
    rw [hv, List.length_replicate] at count
    rw [hv, nodeCountAll_eq, Term.nodes_replicate, Nat.mul_comm] at nodes
    exact ⟨count, nodes⟩

theorem wellLabelled_false_iff {v : Value} :
    v.WellLabelled false ↔ ∀ l ∈ v.labels, IsLabel false l.toList := by
  induction v with
  | bit m b =>
    constructor
    · intro h l hl
      obtain ⟨hlabel⟩ := h
      obtain hl | hl := mem_labels.mp hl
      · exact hlabel l hl
      · cases hl
    · intro h
      exact .bit fun l hl => h l (mem_labels.mpr (.inl hl))
  | collection m vs ih =>
    constructor
    · intro h l hl
      obtain _ | ⟨hlabel, hchildren⟩ := h
      obtain hl | hl := mem_labels.mp hl
      · exact hlabel l hl
      · obtain ⟨v, hv, hl⟩ := mem_labelsAll.mp hl
        exact (ih v hv).mp (hchildren v hv) l hl
    · intro h
      refine .collection (fun l hl => h l (mem_labels.mpr (.inl hl))) fun v hv => ?_
      exact (ih v hv).mpr fun l hl => h l (mem_labels.mpr (.inr (mem_labelsAll.mpr ⟨v, hv, hl⟩)))

theorem wellLabelled_iff {root : Bool} {v : Value} : v.WellLabelled root ↔
    Labelled root v.label ∧ ∀ l ∈ v.innerLabels, IsLabel false l.toList := by
  cases v with
  | bit m b =>
    constructor
    · intro h
      obtain ⟨hlabel⟩ := h
      exact ⟨hlabel, fun l hl => by cases hl⟩
    · intro h
      exact .bit h.1
  | collection m vs =>
    constructor
    · intro h
      obtain _ | ⟨hlabel, hchildren⟩ := h
      refine ⟨hlabel, fun l hl => ?_⟩
      obtain ⟨v, hv, hl⟩ := mem_labelsAll.mp hl
      exact wellLabelled_false_iff.mp (hchildren v hv) l hl
    · intro h
      refine .collection h.1 fun v hv => wellLabelled_false_iff.mpr fun l hl => ?_
      exact h.2 l (mem_labelsAll.mpr ⟨v, hv, hl⟩)

theorem WellLabelled.spelled {root : Bool} {v : Value} (h : v.WellLabelled root) : v.Spelled := by
  obtain ⟨hlabel, hinner⟩ := wellLabelled_iff.mp h
  intro l hl
  obtain hl | hl := mem_labels.mp hl
  · exact (hlabel l hl).at_root
  · exact (hinner l hl).at_root

theorem Spelled.wellLabelled_iff {v : Value} (h : v.Spelled) :
    v.WellLabelled true ↔ ∀ l ∈ v.innerLabels, ',' ∉ l.toList := by
  rw [Value.wellLabelled_iff]
  constructor
  · intro hw l hl
    exact (isLabel_false_iff.mp (hw.2 l hl)).2
  · intro hcomma
    refine ⟨fun l hl => h l (mem_labels.mpr (.inl hl)), fun l hl => ?_⟩
    exact isLabel_false_iff.mpr ⟨h l (mem_labels.mpr (.inr hl)), hcomma l hl⟩

theorem wellLabelled_of_parse {root : Bool} {text : List Char} {v : Value}
    (h : Value.parse text = .ok v) (hclosed : root = false → closed [] text = true) :
    v.WellLabelled root := by
  obtain ⟨label, body, o, ho, hread⟩ := Term.parse_eq_ok h
  obtain ⟨hlaid, hbody⟩ := laid_of_outline ho hclosed
  cases o with
  | word =>
    obtain ⟨b, rfl⟩ := ofPhrase_word_eq_ok hread
    exact .bit hlaid.isLabel
  | list texts =>
    obtain ⟨inner, rfl, hitems⟩ := outlineBody_eq_list.mp hbody
    obtain ⟨-, -, htexts⟩ := items_eq_ok.mp hitems
    obtain ⟨children, hchildren, rfl⟩ := (Term.parse_list ho).mp h
    refine .collection hlaid.isLabel fun v hv => ?_
    obtain ⟨text', htext', hparse⟩ := mem_of_mapM hchildren hv
    have hshorter : text'.length < text.length := outline_part_length ho htext'
    exact wellLabelled_of_parse hparse fun _ => htexts text' htext'
  | times item count =>
    obtain ⟨inner, rfl, hitems⟩ := outlineBody_eq_times.mp hbody
    obtain ⟨-, -, htexts⟩ := items_eq_ok.mp hitems
    have hshorter : item.length < text.length := outline_part_length ho (by simp [Outline.parts])
    obtain ⟨copies, hcopies⟩ := Term.times_eq_ok ho h
    cases copies with
    | none =>
      rw [Phrase.ofOutline, hcopies] at hread
      cases hp : Phrase.parse item with
      | error e =>
        rw [hp] at hread
        cases hread
      | ok phrase =>
        rw [hp] at hread
        cases hread
    | some n =>
      obtain ⟨element, hitem, -, rfl⟩ := (Term.parse_copies_eq_ok ho hcopies).mp h
      refine .collection hlaid.isLabel fun v hv => ?_
      cases List.eq_of_mem_replicate hv
      exact wellLabelled_of_parse hitem fun _ => htexts item List.mem_cons_self
termination_by text.length

theorem spelled_of_parseLiteral {text : List Char} {v : Value}
    (h : parseLiteral text = .ok (some v)) : v.Spelled := by
  unfold parseLiteral at h
  split at h
  · cases h
  · obtain ⟨w, hw, he⟩ := map_eq_ok.mp h
    cases he
    have hlabelled : v.WellLabelled true := wellLabelled_of_parse hw nofun
    exact hlabelled.spelled

theorem spelled_of_linkSpec {text : List Char} {s : LinkSpec} (h : LinkSpec.parse text = .ok s)
    {v : Value} (hv : s.literal = some v) : v.Spelled := by
  obtain hnone | ⟨literal, hliteral⟩ := LinkSpec.literal_of_parse h
  · cases hnone.symm.trans hv
  · exact spelled_of_parseLiteral (hliteral.trans (congrArg _ hv))

theorem Spelled.parse_print {v : Value} (h : v.Spelled) (hsmall : v.Small) :
    Value.parse v.print = .ok v ↔ ∀ l ∈ v.innerLabels, ',' ∉ l.toList := by
  rw [← h.wellLabelled_iff]
  constructor
  · intro hparse
    exact wellLabelled_of_parse hparse nofun
  · intro hw
    exact (Value.reads hw).parse_eq hsmall.bounded

theorem spelled_bit (b : Bool) : (Value.bit none b).Spelled := fun l hl => by cases hl

theorem spelled_collection {vs : List Value} :
    (Value.collection none vs).Spelled ↔ ∀ v ∈ vs, v.Spelled := by
  have hlabels : (Value.collection none vs).labels = labelsAll vs := rfl
  simp only [Spelled, hlabels, mem_labelsAll]
  constructor
  · intro h v hv l hl
    exact h l ⟨v, hv, hl⟩
  · intro h l hl
    obtain ⟨v, hv, hl⟩ := hl
    exact h v hv l hl

theorem Spelled.sub {v w : Value} {path : Path} (h : v.Spelled) (hw : v.sub? path = some w) :
    w.Spelled := by
  induction path generalizing v with
  | nil =>
    cases hw
    exact h
  | cons k path ih =>
    obtain ⟨u, hu, hw⟩ := Option.bind_eq_some_iff.mp hw
    refine ih (fun l hl => h l ?_) hw
    exact mem_labels.mpr (.inr (mem_labelsAll.mpr ⟨u, List.mem_of_getElem? hu, hl⟩))

theorem labels_invert (v : Value) : v.invert.labels = v.labels := by
  induction v with
  | bit m b => rfl
  | collection m vs ih =>
    have hall : ∀ us : List Value, (∀ u ∈ us, u.invert.labels = u.labels) →
        labelsAll (invertAll us) = labelsAll us := by
      intro us
      induction us with
      | nil =>
        intro _
        rfl
      | cons u us ihs =>
        intro hus
        rw [invertAll, labelsAll, labelsAll, hus u List.mem_cons_self,
          ihs fun w hw => hus w (List.mem_cons_of_mem _ hw)]
    rw [invert, labels, labels, hall vs ih]

end Value
end TickCircuit
