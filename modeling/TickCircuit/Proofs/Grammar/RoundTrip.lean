import TickCircuit.Proofs.Induction
import TickCircuit.Proofs.Interface.Rendering
import TickCircuit.Value.Text
/-!
Printed types and values read back. Equal children are printed once, with their number, and are
read back where that is within the limits of the grammar. Main statement: a tree whose labels can
stand in a text is read as it was printed if all of its collections are within these limits, and
is refused for a count otherwise (`printed_reads_back`).
-/
namespace TickCircuit.Grammar
open Text

def spaced : List (List Char) → List (List Char)
  | [] => []
  | first :: rest => first :: rest.map (' ' :: ·)

theorem intercalate_spaced (pieces : List (List Char)) :
    intercalate [','] (spaced pieces) = intercalate [',', ' '] pieces := by
  cases pieces with
  | nil => rfl
  | cons first rest =>
    rw [spaced]
    induction rest generalizing first with
    | nil => rfl
    | cons next rest ih =>
      change first ++ [','] ++ intercalate [','] ((' ' :: next) :: rest.map (' ' :: ·)) =
        first ++ [',', ' '] ++ intercalate [',', ' '] (next :: rest)
      rw [intercalate_cons_char, ih next]
      simp

theorem mapM_spaced {α ε : Type} {f : List Char → Except ε α} {pieces : List (List Char)}
    (h : ∀ piece ∈ pieces, f (' ' :: piece) = f piece) :
    (spaced pieces).mapM f = pieces.mapM f := by
  cases pieces with
  | nil => rfl
  | cons first rest =>
    have hrest : rest.mapM (f ∘ (' ' :: ·)) = rest.mapM f :=
      mapM_congr fun piece hpiece => h piece (List.mem_cons_of_mem _ hpiece)
    rw [spaced, List.mapM_cons, List.mapM_cons, List.mapM_map, hrest]

theorem padded_of_mem_spaced {pieces : List (List Char)} {text : List Char}
    (h : text ∈ spaced pieces) : ∃ piece ∈ pieces, Padded piece text := by
  cases pieces with
  | nil => cases h
  | cons first rest =>
    obtain rfl | h := List.mem_cons.mp h
    · exact ⟨text, List.mem_cons_self, padded_self text⟩
    · obtain ⟨piece, hpiece, rfl⟩ := List.mem_map.mp h
      exact ⟨piece, List.mem_cons_of_mem _ hpiece, padded_space piece⟩

/-- Items that are alike are printed once, others one by one. -/
theorem printItems_cases (pieces : List (List Char)) :
    (∃ piece n, pieces = List.replicate (n + 1) piece ∧ printItems pieces =
      '<' :: intercalate [','] [piece, ' ' :: countText (n + 1)] ++ ['>']) ∨
    (∀ piece n, pieces ≠ List.replicate (n + 1) piece) ∧
      printItems pieces = '[' :: intercalate [','] (spaced pieces) ++ [']'] := by
  cases pieces with
  | nil => exact .inr ⟨nofun, rfl⟩
  | cons first rest =>
    rw [printItems]
    split
    next h =>
      have hall : first :: rest = List.replicate (rest.length + 1) first := by
        rw [List.replicate_succ, List.cons.injEq]
        exact ⟨rfl, List.eq_replicate_iff.mpr ⟨rfl, by simpa using h⟩⟩
      exact .inl ⟨first, rest.length, hall, by simp [intercalate]⟩
    next h =>
      refine .inr ⟨fun piece n he => h ?_, by rw [intercalate_spaced]⟩
      rw [List.replicate_succ, List.cons.injEq] at he
      obtain ⟨rfl, rfl⟩ := he
      simp

theorem readRepetition_countText {n : Nat} :
    (n ≤ maxCount ∧ readRepetition (' ' :: countText n) = .ok (some n)) ∨
    (¬n ≤ maxCount ∧ ∃ e, readRepetition (' ' :: countText n) = .error e) := by
  have hpadded := padded_space (countText n)
  by_cases hle : n ≤ maxCount
  · have hlt : n < wordLimit := Nat.lt_of_le_of_lt hle (by decide)
    exact .inl ⟨hle, readRepetition_eq_some.mpr ⟨_, hpadded, readCount_countText hlt, hle⟩⟩
  · refine .inr ⟨hle, ?_⟩
    cases hread : readRepetition (' ' :: countText n) with
    | error e => exact ⟨e, rfl⟩
    | ok copies =>
      cases copies with
      | none =>
        have hstar := (readRepetition_eq_none.mp hread).trim_eq
        rw [hpadded.trim_eq, (plain_countText n).1] at hstar
        exact absurd hstar (countText_ne rfl [])
      | some m =>
        obtain ⟨digits, hdigits, hm, hm'⟩ := readRepetition_eq_some.mp hread
        have htrim := hdigits.trim_eq
        rw [hpadded.trim_eq, (plain_countText n).1, (plain_of_readCount hm).1] at htrim
        rw [← htrim] at hm
        exact absurd (eq_of_readCount_countText hm ▸ hm') hle

namespace Term
variable {α : Type} [Term α] {v : α} {bounded : Prop}

/-- A term reads back, or is refused for a count. -/
structure Reads (bounded : Prop) (v : α) : Prop where
  parse_eq : bounded → parse (print v) = .ok v
  refused : ¬bounded → ∃ e, (parse (print v) : Except ParseError α) = .error e ∧
    e.flaw.kind = .invalidCount

theorem Reads.of_ok (h : parse (print v) = .ok v) (hb : bounded) : Reads bounded v :=
  ⟨fun _ => h, fun hn => absurd hb hn⟩

theorem Reads.kind_eq (h : Reads bounded v) {e : ParseError}
    (he : (parse (print v) : Except ParseError α) = .error e) : e.flaw.kind = .invalidCount := by
  by_cases hb : bounded
  · cases (h.parse_eq hb).symm.trans he
  · obtain ⟨e', he', hkind⟩ := h.refused hb
    cases he'.symm.trans he
    exact hkind

theorem Reads.not_blank (h : Reads bounded v) : ¬Blank (print v) := by
  intro hblank
  have he : (parse (print v) : Except ParseError α) = .error ⟨.nothing, print v⟩ := by
    rw [parse, Phrase.parse_eq, outline, if_pos (trim_eq_nil.mpr hblank)]
    rfl
  cases h.kind_eq he

theorem Reads.eq_of_parse (h : Reads bounded v) {w : α} (hw : parse (print v) = .ok w) : v = w := by
  by_cases hb : bounded
  · exact Except.ok.inj ((h.parse_eq hb).symm.trans hw)
  · obtain ⟨e, he, -⟩ := h.refused hb
    cases he.symm.trans hw

/-- Equal items are no more and no larger than a repetition may be. -/
def WithinLimits (vs : List α) : Prop :=
  ∀ n v, vs = List.replicate (n + 1) v →
    n + 1 ≤ maxCount ∧ (n + 1) * nodeCount v ≤ maxNodes

section Collection
variable {root : Bool} {label : Option String} {vs : List α}

theorem withinLimits_replicate {n : Nat} {v : α} : WithinLimits (List.replicate (n + 1) v) ↔
    n + 1 ≤ maxCount ∧ (n + 1) * nodeCount v ≤ maxNodes := by
  constructor
  · intro h
    exact h n v rfl
  · rintro h m w he
    obtain ⟨hlen, hw⟩ := List.eq_replicate_iff.mp he
    rw [List.length_replicate] at hlen
    cases hlen
    cases hw v (List.mem_replicate.mpr ⟨nofun, rfl⟩)
    exact h

theorem closed_repetition {piece : List Char} (h : closed [] piece = true) (n : Nat) :
    ∀ text ∈ [piece, ' ' :: countText n], closed [] text = true := by
  simpa using ⟨h, closed_of_padded (padded_space _) (plain_countText n).2⟩

theorem closed_spaced {pieces : List (List Char)}
    (h : ∀ piece ∈ pieces, closed [] piece = true) :
    ∀ text ∈ spaced pieces, closed [] text = true := by
  intro text htext
  obtain ⟨piece, hpiece, hpadded⟩ := padded_of_mem_spaced htext
  exact closed_of_padded hpadded (h piece hpiece)

theorem closed_print_collection (hlabel : Labelled false label)
    (hclosed : ∀ v ∈ vs, closed [] (print v) = true) :
    closed [] (print (collection label vs)) = true := by
  have htexts : ∀ text ∈ vs.map print, closed [] text = true := by simpa using hclosed
  rw [print_collection]
  refine (laid_print hlabel _).closed ?_
  obtain ⟨piece, n, he, hprint⟩ | ⟨-, hprint⟩ := printItems_cases (vs.map print)
  · have hpiece : closed [] piece = true :=
      htexts piece (he ▸ List.mem_replicate.mpr ⟨nofun, rfl⟩)
    rw [hprint]
    exact closed_around (closed_repetition hpiece _) rfl
  · rw [hprint]
    exact closed_around (closed_spaced htexts) rfl

variable {bounded : α → Prop} (hlabel : Labelled root label)
  (hclosed : ∀ v ∈ vs, closed [] (print v) = true) (hreads : ∀ v ∈ vs, Reads (bounded v) v)
include hlabel hclosed hreads

/-- Items that are printed alike are read from one text, so they are equal. -/
theorem reads_alike {piece : List Char} {n : Nat}
    (halike : vs.map print = List.replicate (n + 1) piece)
    (hprint : printItems (vs.map print) =
      '<' :: intercalate [','] [piece, ' ' :: countText (n + 1)] ++ ['>']) :
    Reads ((∀ v ∈ vs, bounded v) ∧ WithinLimits vs) (collection label vs) := by
  obtain ⟨hlen, hpieces⟩ := List.eq_replicate_iff.mp halike
  rw [List.length_map] at hlen
  have hpiece : ∀ v ∈ vs, print v = piece := fun v hv => hpieces _ (List.mem_map_of_mem hv)
  obtain ⟨v, hv⟩ := List.exists_mem_of_length_pos (by omega : 0 < vs.length)
  have ho : outline (print (collection label vs)) = .ok (label,
      '<' :: intercalate [','] [piece, ' ' :: countText (n + 1)] ++ ['>'],
      .times piece (some (' ' :: countText (n + 1)))) := by
    rw [print_collection, hprint]
    refine Laid.outline_times (some (' ' :: countText (n + 1))) (laid_print hlabel _) ?_
      (closed_repetition ?_ _)
    · exact hpiece v hv ▸ (hreads v hv).not_blank
    · exact hpiece v hv ▸ hclosed v hv
  have hequal : ∀ {w}, parse piece = .ok w → vs = List.replicate (n + 1) w := fun hw =>
    List.eq_replicate_iff.mpr ⟨hlen, fun u hu => (hreads u hu).eq_of_parse (by rwa [hpiece u hu])⟩
  have hread := readRepetition_countText (n := n + 1)
  constructor
  · rintro ⟨hb, hlimits⟩
    have hw : parse piece = .ok v := hpiece v hv ▸ (hreads v hv).parse_eq (hb v hv)
    rw [hequal hw, withinLimits_replicate] at hlimits
    obtain ⟨-, hread⟩ | ⟨hle, -⟩ := hread
    · refine (parse_copies_eq_ok ho hread).mpr ⟨v, hw, ?_, by rw [hequal hw]⟩
      rw [Nat.mul_comm]
      exact hlimits.2
    · exact absurd hlimits.1 hle
  · intro hn
    cases hp : (parse (print (collection label vs)) : Except ParseError α) with
    | error e =>
      refine ⟨e, rfl, ?_⟩
      have hcount : (some (' ' :: countText (n + 1))).elim (.ok none) readRepetition ≠
          .ok none := by
        obtain ⟨-, hread⟩ | ⟨-, e', hread⟩ := hread <;> simp [hread]
      obtain he | hkind := error_of_counted ho hcount hp
      · exact (hreads v hv).kind_eq (hpiece v hv ▸ he)
      · exact hkind
    | ok w =>
      obtain ⟨hle, hread⟩ | ⟨-, e, hread⟩ := hread
      · obtain ⟨element, he, hnodes, -⟩ := (parse_copies_eq_ok ho hread).mp hp
        refine absurd ⟨fun u hu => ?_, ?_⟩ hn
        · by_contra hb
          obtain ⟨e, hu', -⟩ := (hreads u hu).refused hb
          rw [hpiece u hu, he] at hu'
          cases hu'
        · rw [hequal he, withinLimits_replicate, Nat.mul_comm]
          exact ⟨hle, hnodes⟩
      · obtain ⟨e', he', -⟩ := parse_times_error (α := α) ho hread
        cases hp.symm.trans he'

theorem reads_spaced (hdiffer : ∀ piece n, vs.map print ≠ List.replicate (n + 1) piece)
    (hprint : printItems (vs.map print) =
      '[' :: intercalate [','] (spaced (vs.map print)) ++ [']']) :
    Reads ((∀ v ∈ vs, bounded v) ∧ WithinLimits vs) (collection label vs) := by
  have htexts : ∀ text ∈ vs.map print, closed [] text = true := by simpa using hclosed
  have hlimits : WithinLimits vs := fun n v hv =>
    absurd (by rw [hv, List.map_replicate]) (hdiffer (print v) n)
  have hparse : ∀ piece ∈ vs.map print, ∀ text, Padded piece text →
      (parse text : Except ParseError α) = parse piece := by
    intro piece hpiece text hpadded
    obtain ⟨v, hv, rfl⟩ := List.mem_map.mp hpiece
    exact parse_congr (outline_of_padded hpadded (hreads v hv).not_blank)
  have hitems : (spaced (vs.map print)).mapM (parse : List Char → Except ParseError α) =
      (vs.map print).mapM parse :=
    mapM_spaced fun piece hpiece => hparse piece hpiece _ (padded_space piece)
  have ho : outline (print (collection label vs)) = .ok (label,
      '[' :: intercalate [','] (spaced (vs.map print)) ++ [']'],
      .list (spaced (vs.map print))) := by
    rw [print_collection, hprint]
    refine (laid_print hlabel _).outline_list (listed_intercalate _) (fun text htext => ?_)
      (closed_spaced htexts)
    obtain ⟨piece, hpiece, hpadded⟩ := padded_of_mem_spaced htext
    obtain ⟨v, hv, rfl⟩ := List.mem_map.mp hpiece
    exact mt hpadded.blank_iff.mp (hreads v hv).not_blank
  constructor
  · rintro ⟨hb, -⟩
    refine (parse_list ho).mpr ⟨vs, ?_, rfl⟩
    rw [hitems]
    exact mapM_map_eq_ok fun v hv => (hreads v hv).parse_eq (hb v hv)
  · intro hn
    cases hp : (parse (print (collection label vs)) : Except ParseError α) with
    | error e =>
      refine ⟨e, rfl, ?_⟩
      obtain ⟨text, htext, he⟩ := parse_list_error ho hp
      obtain ⟨piece, hpiece, hpadded⟩ := padded_of_mem_spaced htext
      rw [hparse piece hpiece text hpadded] at he
      obtain ⟨v, hv, rfl⟩ := List.mem_map.mp hpiece
      exact (hreads v hv).kind_eq he
    | ok w =>
      obtain ⟨ws, hws, -⟩ := (parse_list ho).mp hp
      rw [hitems] at hws
      refine absurd ⟨fun v hv => ?_, hlimits⟩ hn
      by_contra hb
      obtain ⟨e, he, -⟩ := (hreads v hv).refused hb
      obtain ⟨u, hu⟩ := isOk_of_mapM hws (List.mem_map_of_mem hv)
      cases hu.symm.trans he

/-- A collection reads back if its items do and are within the limits. -/
theorem reads_collection :
    Reads ((∀ v ∈ vs, bounded v) ∧ WithinLimits vs) (collection label vs) := by
  obtain ⟨piece, n, halike, hprint⟩ | ⟨hdiffer, hprint⟩ := printItems_cases (vs.map print)
  · exact reads_alike hlabel hclosed hreads halike hprint
  · exact reads_spaced hlabel hclosed hreads hdiffer hprint

end Collection
end Term
end TickCircuit.Grammar

namespace TickCircuit
open Grammar Text

namespace Interface

/-- Every label of the tree can stand in its text. -/
inductive WellLabelled : Bool → Interface → Prop
  | bit {root label} : Labelled root label → WellLabelled root (.bit label)
  | any {root label} : Labelled root label → WellLabelled root (.any label)
  | none {root label} : Labelled root label → WellLabelled root (.none label)
  | rest {root label element} : Labelled root label → WellLabelled false element →
    WellLabelled root (.rest label element)
  | collection {root label children} : Labelled root label →
    (∀ c ∈ children, WellLabelled false c) → WellLabelled root (.collection label children)

/-- Every collection of the tree is within the limits of a repetition. -/
inductive Bounded : Interface → Prop
  | bit {label} : Bounded (.bit label)
  | any {label} : Bounded (.any label)
  | none {label} : Bounded (.none label)
  | rest {label element} : Bounded element → Bounded (.rest label element)
  | collection {label children} : (∀ c ∈ children, Bounded c) → Term.WithinLimits children →
    Bounded (.collection label children)

theorem Rendering.wellLabelled {root : Bool} {text : List Char} {i : Interface}
    (h : Rendering root text i) : i.WellLabelled root := by
  induction h with
  | bit hlaid => exact .bit hlaid.isLabel
  | none hlaid => exact .none hlaid.isLabel
  | any hlaid | star hlaid => exact .any hlaid.isLabel
  | collection _ _ hlaid ih =>
    refine .collection hlaid.isLabel fun c hc => ?_
    obtain ⟨item, hitem, rfl⟩ := List.mem_map.mp hc
    exact ih item hitem
  | rest _ hlaid ih | starred _ _ hlaid ih => exact .rest hlaid.isLabel ih
  | copies _ _ _ _ _ hlaid ih =>
    refine .collection hlaid.isLabel fun c hc => ?_
    cases List.eq_of_mem_replicate hc
    exact ih

theorem bounded_rest {label : Option String} {element : Interface} :
    Bounded (.rest label element) ↔ Bounded element :=
  ⟨fun | .rest h => h, .rest⟩

theorem bounded_collection {label : Option String} {children : List Interface} :
    Bounded (.collection label children) ↔
      (∀ c ∈ children, Bounded c) ∧ Term.WithinLimits children :=
  ⟨fun | .collection h h' => ⟨h, h'⟩, fun h => .collection h.1 h.2⟩

theorem bounded_copies {n : Nat} {i : Interface} : (copies (n + 1) i).Bounded ↔
    i.Bounded ∧ n + 1 ≤ maxCount ∧ (n + 1) * i.nodeCount ≤ maxNodes := by
  rw [copies, bounded_collection, Term.withinLimits_replicate]
  refine and_congr_left fun _ => ⟨fun h => h i (List.mem_replicate.mpr ⟨nofun, rfl⟩), ?_⟩
  intro h c hc
  cases List.eq_of_mem_replicate hc
  exact h

theorem closed_print {i : Interface} (h : i.WellLabelled false) : closed [] i.print = true := by
  induction i with
  | bit label | any label | none label =>
    cases h with
    | _ hlabel => exact (laid_print hlabel _).closed rfl
  | rest label element ih =>
    cases h with
    | rest hlabel helement =>
      have hitems : ∀ text ∈ [element.print], closed [] text = true := by simpa using ih helement
      rw [print, List.append_assoc]
      exact (laid_print hlabel _).closed (closed_around hitems rfl)
  | collection label children ih =>
    cases h with
    | collection hlabel hchildren =>
      exact Term.closed_print_collection (α := Interface) hlabel fun c hc => ih c hc (hchildren c hc)

theorem reads_rest {root : Bool} {label : Option String} {element : Interface}
    (hlabel : Labelled root label) (hclosed : closed [] element.print = true) {bounded : Prop}
    (h : Term.Reads bounded element) : Term.Reads bounded (Interface.rest label element) := by
  have hitems : ∀ text ∈ [element.print], closed [] text = true := by simpa using hclosed
  have hlaid := laid_print hlabel ('<' :: intercalate [','] [element.print] ++ ['>'])
  have hparse : Term.parse (Term.print (Interface.rest label element)) =
      Interface.rest label <$> Term.parse (Term.print element) := by
    change parse (print (.rest label element)) = _
    rw [print, List.append_assoc]
    exact parse_rest (Laid.outline_times Option.none hlaid h.not_blank hitems) rfl
  constructor
  · intro hb
    rw [hparse, h.parse_eq hb]
    rfl
  · intro hb
    obtain ⟨e, he, hkind⟩ := h.refused hb
    rw [hparse, he]
    exact ⟨e, rfl, hkind⟩

theorem reads {root : Bool} {i : Interface} (h : i.WellLabelled root) :
    Term.Reads i.Bounded i := by
  induction i generalizing root with
  | bit label =>
    cases h with
    | bit hlabel =>
      exact .of_ok (Rendering.bit (laid_print hlabel _)).parse_eq .bit
  | any label =>
    cases h with
    | any hlabel =>
      exact .of_ok (Rendering.any (laid_print hlabel _)).parse_eq .any
  | none label =>
    cases h with
    | none hlabel =>
      exact .of_ok (Rendering.none (laid_print hlabel _)).parse_eq .none
  | rest label element ih =>
    cases h with
    | rest hlabel helement =>
      rw [bounded_rest]
      exact reads_rest hlabel (closed_print helement) (ih helement)
  | collection label children ih =>
    cases h with
    | collection hlabel hchildren =>
      rw [bounded_collection]
      exact Term.reads_collection (α := Interface) hlabel (fun c hc => closed_print (hchildren c hc))
        fun c hc => ih c hc (hchildren c hc)

end Interface

namespace Value

theorem ofPhrases_eq_mapM (ps : List Phrase) : ofPhrases ps = ps.mapM ofPhrase :=
  eq_mapM_of_cons ofPhrases rfl (fun _ _ => rfl) ps

theorem printAll_eq_map (vs : List Value) : printAll vs = vs.map print :=
  eq_map_of_cons printAll rfl (fun _ _ => rfl) vs

instance : Term Value where
  ofPhrase := ofPhrase
  print := print
  nodeCount := nodeCount
  collection := .collection
  ofPhrase_list label text items := by rw [ofPhrase, ofPhrases_eq_mapM]
  ofPhrase_times label text item n := by rw [ofPhrase]
  print_collection label vs := by rw [print, printAll_eq_map]

theorem nodeCountAll_eq (vs : List Value) : nodeCountAll vs = Term.nodes vs := by
  induction vs with
  | nil => rfl
  | cons v vs ih =>
    change nodeCount v + nodeCountAll vs = nodeCount v + Term.nodes vs
    rw [ih]

theorem ofPhrase_word_eq_ok {label : Option String} {body : List Char} {v : Value}
    (h : ofPhrase (.word label body) = .ok v) : ∃ b, v = .bit label b := by
  unfold ofPhrase at h
  split at h
  all_goals cases ‹Phrase.word label body = _›
  all_goals cases h
  · exact ⟨false, rfl⟩
  · exact ⟨true, rfl⟩

/-- Every label of the tree can stand in its text. -/
inductive WellLabelled : Bool → Value → Prop
  | bit {root label high} : Labelled root label → WellLabelled root (.bit label high)
  | collection {root label children} : Labelled root label →
    (∀ v ∈ children, WellLabelled false v) → WellLabelled root (.collection label children)

/-- Every collection of the tree is within the limits of a repetition. -/
inductive Bounded : Value → Prop
  | bit {label high} : Bounded (.bit label high)
  | collection {label children} : (∀ v ∈ children, Bounded v) → Term.WithinLimits children →
    Bounded (.collection label children)

theorem bounded_collection {label : Option String} {children : List Value} :
    Bounded (.collection label children) ↔
      (∀ v ∈ children, Bounded v) ∧ Term.WithinLimits children :=
  ⟨fun | .collection h h' => ⟨h, h'⟩, fun h => .collection h.1 h.2⟩

theorem closed_print {v : Value} (h : v.WellLabelled false) : closed [] v.print = true := by
  induction v with
  | bit label high =>
    cases h with
    | bit hlabel => exact (laid_print hlabel _).closed (by cases high <;> rfl)
  | collection label children ih =>
    cases h with
    | collection hlabel hchildren =>
      exact Term.closed_print_collection (α := Value) hlabel fun v hv => ih v hv (hchildren v hv)

theorem reads {root : Bool} {v : Value} (h : v.WellLabelled root) : Term.Reads v.Bounded v := by
  induction v generalizing root with
  | bit label high =>
    cases h with
    | bit hlabel =>
      refine .of_ok ?_ .bit
      have hlaid := laid_print hlabel [if high then '1' else '0']
      cases high with
      | false => exact Term.parse_outline (hlaid.outline_eq_ok ⟨nofun, rfl, rfl⟩ rfl)
      | true => exact Term.parse_outline (hlaid.outline_eq_ok ⟨nofun, rfl, rfl⟩ rfl)
  | collection label children ih =>
    cases h with
    | collection hlabel hchildren =>
      rw [bounded_collection]
      exact Term.reads_collection (α := Value) hlabel (fun v hv => closed_print (hchildren v hv))
        fun v hv => ih v hv (hchildren v hv)

end Value

/-- A well labelled tree reads back if it is within the limits, and is refused for a count if it
is not. -/
theorem printed_reads_back :
    (∀ i : Interface, i.WellLabelled true →
      (i.Bounded → Interface.parse i.text.toList = .ok i) ∧
      (¬i.Bounded → ∃ e, Interface.parse i.text.toList = .error e ∧
        e.flaw.kind = .invalidCount)) ∧
    ∀ v : Value, v.WellLabelled true →
      (v.Bounded → Value.parse v.text.toList = .ok v) ∧
      (¬v.Bounded → ∃ e, Value.parse v.text.toList = .error e ∧
        e.flaw.kind = .invalidCount) := by
  refine ⟨fun i h => ?_, fun v h => ?_⟩
  · rw [Interface.text, String.toList_ofList]
    exact ⟨(Interface.reads h).parse_eq, (Interface.reads h).refused⟩
  · rw [Value.text, String.toList_ofList]
    exact ⟨(Value.reads h).parse_eq, (Value.reads h).refused⟩

/-- Two bits and three zeros read back, and one bit more than may be repeated does not. -/
theorem printed_reads_back_bits :
    Interface.parse (Interface.copies 2 (.bit (some "a b"))).text.toList =
        .ok (.copies 2 (.bit (some "a b"))) ∧
      (∃ e, Interface.parse (Interface.copies 1025 (.bit none)).text.toList = .error e ∧
        e.flaw.kind = .invalidCount) ∧
      Value.parse (Value.collection (some "x,y") (List.replicate 3 .low)).text.toList =
        .ok (.collection (some "x,y") (List.replicate 3 .low)) := by
  have hlabel : Labelled false (some "a b") := by
    rintro _ ⟨⟩
    exact ⟨by decide, by decide, by simp [isBracket], by decide, by decide⟩
  have hcomma : Labelled true (some "x,y") := by
    rintro _ ⟨⟩
    exact ⟨by decide, by decide, by simp [isBracket], by decide, by simp⟩
  have hcopies : ∀ {n l}, Labelled false l → (Interface.copies n (.bit l)).WellLabelled true := by
    intro n l hl
    refine .collection (.none true) fun c hc => ?_
    cases List.eq_of_mem_replicate hc
    exact .bit hl
  have hpair : (Interface.copies 2 (.bit (some "a b"))).Bounded :=
    Interface.bounded_copies.mpr ⟨.bit, by decide, by decide⟩
  have hmany : ¬(Interface.copies 1025 (.bit none)).Bounded := fun h =>
    absurd (Interface.bounded_copies.mp h).2.1 (by decide)
  have hzeros : (Value.collection (some "x,y") (List.replicate 3 .low)).WellLabelled true := by
    refine .collection hcomma fun v hv => ?_
    cases List.eq_of_mem_replicate hv
    exact .bit (.none false)
  have hzeros' : (Value.collection (some "x,y") (List.replicate 3 .low)).Bounded := by
    refine .collection (fun v hv => ?_) (Term.withinLimits_replicate.mpr (by decide))
    cases List.eq_of_mem_replicate hv
    exact .bit
  obtain ⟨hinterface, hvalue⟩ := printed_reads_back
  exact ⟨(hinterface _ (hcopies hlabel)).1 hpair, (hinterface _ (hcopies (.none false))).2 hmany,
    (hvalue _ hzeros).1 hzeros'⟩

end TickCircuit
