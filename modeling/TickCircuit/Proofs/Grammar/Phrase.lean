import TickCircuit.Proofs.Grammar.Outline
import TickCircuit.Proofs.Text.Count
/-!
Phrases, and what is read from them. Types and values are read and printed alike (`Term`), and
their reader goes by the outline of a text: main statements are its cases for lists and
repetitions (`Term.parse_list`, `Term.parse_copies`).
-/
namespace TickCircuit.Grammar
open Text

theorem outline_trim {s : List Char} (h : trim s ≠ []) : outline (trim s) = outline s := by
  unfold outline
  rw [trim_trim, if_neg h, if_neg h]

theorem outline_of_padded {s text : List Char} (h : Padded s text) (hs : ¬Blank s) :
    outline text = outline s := by
  have hne : trim s ≠ [] := mt trim_eq_nil.mp hs
  rw [← outline_trim hne, ← h.trim_eq, outline_trim (h.trim_eq ▸ hne)]

theorem readRepetition_eq_none {text : List Char} :
    readRepetition text = .ok none ↔ Padded ['*'] text := by
  unfold readRepetition
  constructor
  · intro h
    split at h
    next hs => exact hs ▸ padded_trim text
    next =>
      split at h
      · cases h
      · split at h <;> cases h
  · intro h
    exact if_pos h.trim_eq

theorem plain_of_isDigit {digits : List Char} (h : ∀ c ∈ digits, c = '+' ∨ c.isDigit) :
    trim digits = digits ∧ closed [] digits = true := by
  have hplain : ∀ c ∈ digits, isBlank c = false ∧ isBracket c = false ∧ c ≠ ',' := by
    intro c hc
    obtain rfl | hd := h c hc
    · decide
    · refine ⟨isBlank_of_isDigit hd, ?_, ne_of_isDigit hd rfl⟩
      simp [isBracket, ne_of_isDigit hd (show '['.isDigit = false from rfl),
        ne_of_isDigit hd (show ']'.isDigit = false from rfl),
        ne_of_isDigit hd (show '<'.isDigit = false from rfl),
        ne_of_isDigit hd (show '>'.isDigit = false from rfl)]
  have hclosed : closed [] (digits ++ []) = true :=
    closed_plain_append (fun c hc => (hplain c hc).2.1) (fun _ hc => (hplain _ hc).2.2 rfl) []
  rw [List.append_nil] at hclosed
  exact ⟨trim_of_isBlank fun c hc => (hplain c hc).1, hclosed⟩

theorem plain_of_readCount {digits : List Char} {n : Nat} (h : readCount digits = some n) :
    trim digits = digits ∧ closed [] digits = true :=
  plain_of_isDigit (isDigit_of_readCount h).2

theorem plain_countText (n : Nat) : trim (countText n) = countText n ∧
    closed [] (countText n) = true :=
  plain_of_isDigit fun _ hc => .inr (isDigit_of_mem_countText hc)

theorem readRepetition_error {text : List Char} {e : ParseError}
    (h : readRepetition text = .error e) : e.flaw.kind = .invalidCount := by
  unfold readRepetition at h
  split at h
  · cases h
  split at h
  · cases h
    rfl
  split at h <;> cases h
  rfl

theorem readRepetition_eq_some {text : List Char} {n : Nat} :
    readRepetition text = .ok (some n) ↔
      ∃ digits, Padded digits text ∧ readCount digits = some n ∧ n ≤ maxCount := by
  unfold readRepetition
  constructor
  · intro h
    split at h
    · cases h
    split at h
    · cases h
    next m hm =>
      split at h
      · cases h
      next hle =>
        cases h
        exact ⟨trim text, padded_trim text, hm, Nat.le_of_not_lt hle⟩
  · rintro ⟨digits, hdigits, hn, hle⟩
    have htrim : trim text = digits := hdigits.trim_eq.trans (plain_of_readCount hn).1
    have hstar : digits ≠ ['*'] := by
      rintro rfl
      cases hn
    rw [htrim, if_neg hstar, hn]
    exact if_neg (Nat.not_lt.mpr hle)

theorem attach_mapM {α β ε : Type} (f : α → Except ε β) (xs : List α) :
    (xs.attach.mapM fun x => f x.val) = xs.mapM f := by
  conv_rhs => rw [← List.attach_map_subtype_val xs, List.mapM_map]
  rfl

namespace Phrase

def ofOutline (label : Option String) (body : List Char) : Outline → Except ParseError Phrase
  | .word => .ok (.word label body)
  | .list items => .list label body <$> items.mapM parse
  | .times item count => do
    let phrase ← parse item
    let copies ← count.elim (.ok none) readRepetition
    return .times label body phrase copies

theorem parse_eq (text : List Char) :
    parse text = outline text >>= fun (label, body, o) => ofOutline label body o := by
  rw [parse]
  split
  next h => rw [h]; rfl
  next h => rw [h]; rfl
  next items h =>
    rw [h]
    exact congrArg (· >>= fun phrases => pure (Phrase.list _ _ phrases)) (attach_mapM parse items)
  next h => rw [h]; rfl

theorem parse_congr {s t : List Char} (h : outline s = outline t) : parse s = parse t := by
  rw [parse_eq, parse_eq, h]

theorem parse_word {s body : List Char} {label : Option String}
    (h : outline s = .ok (label, body, .word)) : parse s = .ok (.word label body) := by
  rw [parse_eq, h]
  rfl

theorem trim_ne_nil {s : List Char} {p : Phrase} (h : parse s = .ok p) : trim s ≠ [] := by
  intro hs
  rw [parse_eq, outline, if_pos hs] at h
  cases h

end Phrase

/-- What is read from phrases and printed: a type or a value. -/
class Term (α : Type) where
  ofPhrase : Phrase → Except ParseError α
  print : α → List Char
  nodeCount : α → Nat
  collection : Option String → List α → α
  ofPhrase_list : ∀ label text items,
    ofPhrase (.list label text items) = collection label <$> items.mapM ofPhrase
  ofPhrase_times : ∀ label text item n, ofPhrase (.times label text item (some n)) = do
    let v ← ofPhrase item
    checkExpansion (nodeCount v) n text
    return collection label (List.replicate n v)
  print_collection : ∀ label vs,
    print (collection label vs) = printLabel label ++ printItems (vs.map print)

namespace Term
variable {α : Type} [Term α] {text body : List Char} {label : Option String}

def parse (text : List Char) : Except ParseError α := Phrase.parse text >>= ofPhrase

def nodes (vs : List α) : Nat := vs.foldr (nodeCount · + ·) 0

theorem nodes_replicate (n : Nat) (v : α) : nodes (List.replicate n v) = nodeCount v * n := by
  induction n with
  | zero => rfl
  | succ n ih =>
    rw [List.replicate_succ, nodes, List.foldr_cons, ← nodes, ih, Nat.mul_succ, Nat.add_comm]

theorem parse_congr {s t : List Char} (h : outline s = outline t) :
    (parse s : Except ParseError α) = parse t := by
  rw [parse, parse, Phrase.parse_congr h]

theorem parse_eq_ok {v : α} (h : parse text = .ok v) :
    ∃ label body o, outline text = .ok (label, body, o) ∧
      Phrase.ofOutline label body o >>= ofPhrase = .ok v := by
  rw [parse, Phrase.parse_eq] at h
  cases ho : outline text with
  | error e =>
    rw [ho] at h
    cases h
  | ok read =>
    rw [ho] at h
    exact ⟨read.1, read.2.1, read.2.2, rfl, h⟩

theorem not_blank {v : α} (h : parse text = .ok v) : ¬Blank text := by
  obtain ⟨phrase, hp, -⟩ := bind_eq_ok.mp h
  exact mt trim_eq_nil.mpr (Phrase.trim_ne_nil hp)

theorem parse_outline {o : Outline} (h : outline text = .ok (label, body, o)) :
    (parse text : Except ParseError α) = Phrase.ofOutline label body o >>= ofPhrase := by
  rw [parse, Phrase.parse_eq, h]
  rfl

theorem copies_eq_ok {x : Except ParseError α} {n : Nat} {v : α} :
    (do
      let element ← x
      checkExpansion (nodeCount element) n text
      return collection label (List.replicate n element)) = .ok v ↔
    ∃ element, x = .ok element ∧ nodeCount element * n ≤ maxNodes ∧
      collection label (List.replicate n element) = v := by
  rw [bind_eq_ok]
  refine exists_congr fun element => and_congr_right fun _ => ?_
  rw [checkExpansion]
  split
  next hgt => exact iff_of_false nofun fun hv => absurd hv.1 (Nat.not_le.mpr hgt)
  next hle => exact ⟨fun hv => ⟨Nat.le_of_not_lt hle, Except.ok.inj hv⟩, fun hv => hv.2 ▸ rfl⟩

section List
variable {items : List (List Char)} (h : outline text = .ok (label, body, .list items))
include h

theorem parse_of_list : (parse text : Except ParseError α) =
    collection label <$> (items.mapM Phrase.parse >>= (List.mapM ofPhrase ·)) := by
  rw [parse_outline h, Phrase.ofOutline]
  cases items.mapM Phrase.parse with
  | error e => rfl
  | ok phrases => exact ofPhrase_list label body phrases

theorem parse_list {v : α} :
    parse text = .ok v ↔ ∃ vs, items.mapM parse = .ok vs ∧ collection label vs = v := by
  rw [parse_of_list h, map_eq_ok]
  simp only [mapM_bind_mapM_eq_ok]
  rfl

theorem parse_list_error {e : ParseError} (he : (parse text : Except ParseError α) = .error e) :
    ∃ item ∈ items, (parse item : Except ParseError α) = .error e := by
  rw [parse_of_list h] at he
  cases hp : items.mapM Phrase.parse >>= (List.mapM (ofPhrase : Phrase → Except ParseError α) ·) with
  | error e' =>
    rw [hp] at he
    cases he
    exact mapM_bind_mapM_eq_error hp
  | ok vs =>
    rw [hp] at he
    cases he

end List

section Times
variable {item : List Char} {count : Option (List Char)}
  (h : outline text = .ok (label, body, .times item count))
include h

theorem times_eq_ok {v : α} (hv : parse text = .ok v) :
    ∃ copies, count.elim (.ok none) readRepetition = .ok copies := by
  rw [parse_outline h, Phrase.ofOutline] at hv
  obtain ⟨phrase, hp, -⟩ := bind_eq_ok.mp hv
  obtain ⟨item, -, hp⟩ := bind_eq_ok.mp hp
  obtain ⟨copies, hc, -⟩ := bind_eq_ok.mp hp
  exact ⟨copies, hc⟩

theorem parse_copies {n : Nat} (hn : count.elim (.ok none) readRepetition = .ok (some n)) :
    (parse text : Except ParseError α) = do
      let v ← parse item
      checkExpansion (nodeCount v) n body
      return collection label (List.replicate n v) := by
  rw [parse_outline h, Phrase.ofOutline, parse, hn]
  cases Phrase.parse item with
  | error e => rfl
  | ok phrase => exact ofPhrase_times label body phrase n

theorem parse_copies_eq_ok {n : Nat} {v : α}
    (hn : count.elim (.ok none) readRepetition = .ok (some n)) :
    parse text = .ok v ↔ ∃ element, parse item = .ok element ∧
      nodeCount element * n ≤ maxNodes ∧ collection label (List.replicate n element) = v := by
  rw [parse_copies h hn, copies_eq_ok]

theorem parse_times_error {e : ParseError}
    (he : count.elim (.ok none) readRepetition = .error e) :
    ∃ e', (parse text : Except ParseError α) = .error e' ∧
      ((parse item : Except ParseError α) = .error e' ∨ e' = e) := by
  rw [parse_outline h, Phrase.ofOutline, parse, he]
  cases Phrase.parse item with
  | error e' => exact ⟨e', rfl, .inl rfl⟩
  | ok phrase => exact ⟨e, rfl, .inr rfl⟩

/-- What has a count is refused for it or for its item. -/
theorem error_of_counted {e : ParseError}
    (hcount : count.elim (.ok none) readRepetition ≠ .ok none)
    (he : (parse text : Except ParseError α) = .error e) :
    (parse item : Except ParseError α) = .error e ∨ e.flaw.kind = .invalidCount := by
  cases hread : count.elim (.ok none) readRepetition with
  | error e' =>
    obtain ⟨e'', he', hitem | rfl⟩ := parse_times_error (α := α) h hread
    · exact .inl (by rw [hitem, ← he', he])
    · cases he.symm.trans he'
      cases count with
      | none => cases hread
      | some count => exact .inr (readRepetition_error hread)
  | ok copies =>
    cases copies with
    | none => exact absurd hread hcount
    | some n =>
      rw [parse_copies h hread] at he
      cases hitem : (parse item : Except ParseError α) with
      | error e' =>
        rw [hitem] at he
        exact .inl he
      | ok v =>
        rw [hitem] at he
        change (checkExpansion (nodeCount v) n body >>= fun _ => pure (collection label _)) =
          .error e at he
        rw [checkExpansion] at he
        split at he <;> cases he
        exact .inr rfl

end Times
end Term
end TickCircuit.Grammar
