import TickCircuit.Interface.Text
import TickCircuit.Proofs.Grammar.Phrase
/-!
The texts of an interface. Main statement: an interface is read from its renderings and from no
other text, so every text is a rendering of at most one interface (`parse_eq_ok_iff_rendering`).
-/
namespace TickCircuit.Interface
open Grammar Text

theorem ofPhrases_eq_mapM (ps : List Phrase) : ofPhrases ps = ps.mapM ofPhrase :=
  eq_mapM_of_cons ofPhrases rfl (fun _ _ => rfl) ps

theorem printAll_eq_map (cs : List Interface) : printAll cs = cs.map print :=
  eq_map_of_cons printAll rfl (fun _ _ => rfl) cs

instance : Term Interface where
  ofPhrase := ofPhrase
  print := print
  nodeCount := nodeCount
  collection := .collection
  ofPhrase_list label text items := by rw [ofPhrase, ofPhrases_eq_mapM]
  ofPhrase_times label text item n := by rw [ofPhrase]
  print_collection label vs := by rw [print, printAll_eq_map]

theorem nodeCountAll_eq (cs : List Interface) : nodeCountAll cs = Term.nodes cs := by
  induction cs with
  | nil => rfl
  | cons c cs ih =>
    change nodeCount c + nodeCountAll cs = nodeCount c + Term.nodes cs
    rw [ih]

theorem ofPhrase_word_eq_ok {label : Option String} {body : List Char} {i : Interface} :
    ofPhrase (.word label body) = .ok i ↔
      (body = ['b', 'i', 't'] ∧ i = .bit label) ∨
      ((body = ['a', 'n', 'y'] ∨ body = ['*']) ∧ i = .any label) ∨
      (body = ['n', 'o', 'n', 'e'] ∧ i = .none label) := by
  constructor
  · intro h
    unfold ofPhrase at h
    split at h
    all_goals cases ‹Phrase.word label body = _›
    all_goals cases h
    · exact .inl ⟨rfl, rfl⟩
    · exact .inr (.inl ⟨.inl rfl, rfl⟩)
    · exact .inr (.inl ⟨.inr rfl, rfl⟩)
    · exact .inr (.inr ⟨rfl, rfl⟩)
  · rintro (⟨rfl, rfl⟩ | ⟨rfl | rfl, rfl⟩ | ⟨rfl, rfl⟩) <;> rfl

theorem parse_word {text body : List Char} {label : Option String}
    (h : outline text = .ok (label, body, .word)) : parse text = ofPhrase (.word label body) :=
  Term.parse_outline h

theorem parse_rest {text body item : List Char} {label : Option String}
    {count : Option (List Char)} (h : outline text = .ok (label, body, .times item count))
    (hcount : count.elim (.ok Option.none) readRepetition = .ok Option.none) :
    parse text = .rest label <$> parse item := by
  rw [show parse text = _ from Term.parse_outline h, Phrase.ofOutline, hcount, parse]
  cases Phrase.parse item with
  | error e => rfl
  | ok phrase =>
    change ofPhrase (.times label body phrase Option.none) = .rest label <$> ofPhrase phrase
    rw [ofPhrase]
    rfl

/-- The texts of an interface. Below the root, no label has a comma. -/
inductive Rendering : Bool → List Char → Interface → Prop
  | bit {root label text} : Laid root ['b', 'i', 't'] label text → Rendering root text (.bit label)
  | none {root label text} : Laid root ['n', 'o', 'n', 'e'] label text →
    Rendering root text (.none label)
  | any {root label text} : Laid root ['a', 'n', 'y'] label text → Rendering root text (.any label)
  | star {root label text} : Laid root ['*'] label text → Rendering root text (.any label)
  | collection {root label text inner} {items : List (List Char × Interface)} :
    (∀ item ∈ items, Rendering false item.1 item.2) → Listed (items.map (·.1)) inner →
    Laid root ('[' :: inner ++ [']']) label text →
    Rendering root text (.collection label (items.map (·.2)))
  | rest {root label text item element} : Rendering false item element →
    Laid root ('<' :: item ++ ['>']) label text → Rendering root text (.rest label element)
  | starred {root label text item count element} : Rendering false item element →
    Padded ['*'] count → Laid root ('<' :: (item ++ [','] ++ count) ++ ['>']) label text →
    Rendering root text (.rest label element)
  | copies {root label text item count digits element} {n : Nat} : Rendering false item element →
    Padded digits count → readCount digits = some n → n ≤ maxCount →
    element.nodeCount * n ≤ maxNodes →
    Laid root ('<' :: (item ++ [','] ++ count) ++ ['>']) label text →
    Rendering root text (.collection label (List.replicate n element))

/-- Whatever is read is read from one of its renderings. -/
theorem rendering_of_parse {root : Bool} {text : List Char} {i : Interface}
    (h : parse text = .ok i) (hclosed : root = false → closed [] text = true) :
    Rendering root text i := by
  obtain ⟨label, body, o, ho, hread⟩ := Term.parse_eq_ok h
  obtain ⟨hlaid, hbody⟩ := laid_of_outline ho hclosed
  cases o with
  | word =>
    obtain ⟨rfl, rfl⟩ | ⟨rfl | rfl, rfl⟩ | ⟨rfl, rfl⟩ := ofPhrase_word_eq_ok.mp hread
    · exact .bit hlaid
    · exact .any hlaid
    · exact .star hlaid
    · exact .none hlaid
  | list texts =>
    obtain ⟨inner, rfl, hitems⟩ := outlineBody_eq_list.mp hbody
    obtain ⟨hlisted, -, htexts⟩ := items_eq_ok.mp hitems
    obtain ⟨children, hchildren, rfl⟩ := (Term.parse_list ho).mp h
    obtain ⟨items, rfl, rfl, hparse⟩ := mapM_eq_ok_iff_pairs.mp hchildren
    refine .collection (fun item hitem => ?_) hlisted hlaid
    have hmem : item.1 ∈ items.map (·.1) := List.mem_map_of_mem hitem
    have hshorter : item.1.length < text.length := outline_part_length ho hmem
    exact rendering_of_parse (hparse item hitem) fun _ => htexts item.1 hmem
  | times item count =>
    obtain ⟨inner, rfl, hitems⟩ := outlineBody_eq_times.mp hbody
    obtain ⟨hlisted, -, htexts⟩ := items_eq_ok.mp hitems
    have hshorter : item.length < text.length := outline_part_length ho (by simp [Outline.parts])
    have hitem : ∀ {element}, parse item = .ok element → Rendering false item element :=
      fun he => rendering_of_parse he fun _ => htexts item List.mem_cons_self
    obtain ⟨copies, hcount⟩ := Term.times_eq_ok ho h
    cases copies with
    | none =>
      rw [parse_rest ho hcount] at h
      obtain ⟨element, he, rfl⟩ := map_eq_ok.mp h
      cases count with
      | none =>
        cases hlisted.eq_intercalate (List.cons_ne_nil _ _)
        exact .rest (hitem he) hlaid
      | some count =>
        cases hlisted.eq_intercalate (List.cons_ne_nil _ _)
        exact .starred (hitem he) (readRepetition_eq_none.mp hcount) hlaid
    | some n =>
      obtain ⟨element, he, hnodes, rfl⟩ := (Term.parse_copies_eq_ok ho hcount).mp h
      cases count with
      | none => cases hcount
      | some count =>
        cases hlisted.eq_intercalate (List.cons_ne_nil _ _)
        obtain ⟨digits, hdigits, hn, hle⟩ := readRepetition_eq_some.mp hcount
        exact .copies (hitem he) hdigits hn hle hnodes hlaid
termination_by text.length

theorem Rendering.closed {root : Bool} {text : List Char} {i : Interface}
    (h : Rendering root text i) : root = false → closed [] text = true := by
  induction h with
  | bit hlaid | none hlaid | any hlaid | star hlaid =>
    rintro rfl
    exact hlaid.closed rfl
  | collection _ hlisted hlaid ih =>
    rintro rfl
    refine hlaid.closed (hlisted.closed (fun text htext => ?_) rfl)
    obtain ⟨item, hitem, rfl⟩ := List.mem_map.mp htext
    exact ih item hitem rfl
  | @rest _ _ _ item _ _ hlaid ih =>
    rintro rfl
    have hitems : ∀ text ∈ [item], Grammar.closed [] text = true := by simpa using ih rfl
    exact hlaid.closed (closed_around hitems rfl)
  | @starred _ _ _ item count _ _ hcount hlaid ih =>
    rintro rfl
    have hitems : ∀ text ∈ [item, count], Grammar.closed [] text = true := by
      simpa using ⟨ih rfl, closed_of_padded hcount rfl⟩
    exact hlaid.closed (closed_around hitems rfl)
  | @copies _ _ _ item count _ _ _ _ hdigits hn _ _ hlaid ih =>
    rintro rfl
    have hitems : ∀ text ∈ [item, count], Grammar.closed [] text = true := by
      simpa using ⟨ih rfl, closed_of_padded hdigits (plain_of_readCount hn).2⟩
    exact hlaid.closed (closed_around hitems rfl)

/-- Every rendering of an interface is read as it. -/
theorem Rendering.parse_eq {root : Bool} {text : List Char} {i : Interface}
    (h : Rendering root text i) : parse text = .ok i := by
  induction h with
  | bit hlaid | none hlaid | any hlaid | star hlaid =>
    rw [parse_word (hlaid.outline_eq_ok ⟨nofun, rfl, rfl⟩ rfl)]
    rfl
  | @collection _ _ _ _ items hitems hlisted hlaid ih =>
    have hblank : ∀ text ∈ items.map (·.1), ¬Blank text := by
      intro text htext
      obtain ⟨item, hitem, rfl⟩ := List.mem_map.mp htext
      exact Term.not_blank (ih item hitem)
    have hclosed : ∀ text ∈ items.map (·.1), Grammar.closed [] text = true := by
      intro text htext
      obtain ⟨item, hitem, rfl⟩ := List.mem_map.mp htext
      exact (hitems item hitem).closed rfl
    have ho := hlaid.outline_list hlisted hblank hclosed
    exact (Term.parse_list ho).mpr ⟨_, mapM_eq_ok_iff_pairs.mpr ⟨items, rfl, rfl, ih⟩, rfl⟩
  | @rest _ _ _ item _ hitem hlaid ih =>
    have hclosed : ∀ text ∈ [item], Grammar.closed [] text = true := by
      simpa using hitem.closed rfl
    have ho := Laid.outline_times Option.none hlaid (Term.not_blank ih) hclosed
    rw [parse_rest ho rfl, ih]
    rfl
  | @starred _ _ _ item count _ hitem hcount hlaid ih =>
    have hclosed : ∀ text ∈ [item, count], Grammar.closed [] text = true := by
      simpa using ⟨hitem.closed rfl, closed_of_padded hcount rfl⟩
    have ho := Laid.outline_times (some count) hlaid (Term.not_blank ih) hclosed
    rw [parse_rest ho (readRepetition_eq_none.mpr hcount), ih]
    rfl
  | @copies _ _ _ item count digits _ n hitem hdigits hn hle hnodes hlaid ih =>
    have hclosed : ∀ text ∈ [item, count], Grammar.closed [] text = true := by
      simpa using ⟨hitem.closed rfl, closed_of_padded hdigits (plain_of_readCount hn).2⟩
    have ho := Laid.outline_times (some count) hlaid (Term.not_blank ih) hclosed
    have hcount := readRepetition_eq_some.mpr ⟨digits, hdigits, hn, hle⟩
    exact (Term.parse_copies_eq_ok ho hcount).mpr ⟨_, ih, hnodes, rfl⟩

theorem parse_bits (n : Nat) :
    parse ('[' :: Text.intercalate [','] (List.replicate n ['b', 'i', 't']) ++ [']']) =
      .ok (.copies n (.bit Option.none)) := by
  let items : List (List Char × Interface) := List.replicate n (['b', 'i', 't'], .bit Option.none)
  have hbits : Rendering true ('[' :: Text.intercalate [','] (items.map (·.1)) ++ [']'])
      (.collection Option.none (items.map (·.2))) := by
    refine .collection (fun item hitem => ?_) (listed_intercalate _) (.plain (padded_self _))
    cases List.eq_of_mem_replicate hitem
    exact .bit (.plain (padded_self _))
  rw [List.map_replicate, List.map_replicate] at hbits
  exact hbits.parse_eq

/-- An interface is read from its renderings only, and no text renders two of them. -/
theorem parse_eq_ok_iff_rendering (text : List Char) (i : Interface) :
    (parse text = .ok i ↔ Rendering true text i) ∧
      ∀ j, Rendering true text i → Rendering true text j → i = j := by
  refine ⟨⟨fun h => rendering_of_parse h nofun, Rendering.parse_eq⟩, fun j hi hj => ?_⟩
  exact Except.ok.inj (hi.parse_eq.symm.trans hj.parse_eq)

/-- Blanks and a sign do not keep a text from being read, as two bits and as nothing else. -/
theorem rendering_two_bits :
    parse ['<', 'b', 'i', 't', ' ', ',', '+', '2', '>'] = .ok (.copies 2 (.bit Option.none)) ∧
      ∀ j, Rendering true ['<', 'b', 'i', 't', ' ', ',', '+', '2', '>'] j →
        .copies 2 (.bit Option.none) = j := by
  have hbit : Rendering false ['b', 'i', 't', ' '] (.bit Option.none) :=
    .bit (.plain ⟨[], [' '], .nil, by simp [Blank, isBlank], rfl⟩)
  have h : Rendering true ['<', 'b', 'i', 't', ' ', ',', '+', '2', '>']
      (.copies 2 (.bit Option.none)) :=
    .copies hbit (padded_self ['+', '2']) (n := 2) (by decide) (by decide) (by decide)
      (.plain (padded_self _))
  have hread := parse_eq_ok_iff_rendering ['<', 'b', 'i', 't', ' ', ',', '+', '2', '>']
    (.copies 2 (.bit Option.none))
  exact ⟨hread.1.mpr h, fun j => hread.2 j h⟩

end TickCircuit.Interface
