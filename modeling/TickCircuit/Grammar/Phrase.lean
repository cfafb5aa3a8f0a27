import TickCircuit.Grammar.Flaw
import TickCircuit.Text.Blank
import TickCircuit.Text.Count
import TickCircuit.Text.Split
/-!
The grammar that types and values share. A phrase is a word, a list `[a, b]` or a repetition
`<a>` or `<a, n>`, each with an optional label before a colon. `outline` reads one level of a text
and `Phrase.parse` all of them; every part that an outline leaves unread is shorter than its text.
-/
namespace TickCircuit.Grammar
open Text

inductive Phrase where
  | word (label : Option String) (text : List Char)
  | list (label : Option String) (text : List Char) (items : List Phrase)
  | times (label : Option String) (text : List Char) (item : Phrase) (count : Option Nat)

def isBracket (c : Char) : Bool := c == '[' || c == ']' || c == '<' || c == '>'

/-- A label ends at the first colon and holds no bracket; a blank label is none. -/
def splitLabel (text : List Char) : Option String × List Char :=
  match splitOnce [':'] text with
  | some (before, after) =>
    if trim before ≠ [] ∧ ¬before.any isBracket then (some (String.ofList (trim before)), trim after)
    else (none, text)
  | none => (none, text)

theorem splitLabel_length_le (text : List Char) : (splitLabel text).2.length ≤ text.length := by
  unfold splitLabel
  split
  next before after h =>
    have ha := trim_length_le after
    have hs := congrArg List.length (splitOnce_append h)
    simp only [List.length_append] at hs
    split <;> simp only <;> omega
  next => simp

def closes (opener closer : Char) : Bool :=
  (opener == '[' && closer == ']') || (opener == '<' && closer == '>')

def extendFirst (c : Char) : List (List Char) → List (List Char)
  | [] => [[c]]
  | piece :: more => (c :: piece) :: more

/-- Cuts at the commas outside all brackets; `opened` holds the open brackets, innermost first. -/
def cut (position : Nat) (opened : List (Char × Nat)) :
    List Char → Except Flaw (List (List Char))
  | [] =>
    match opened with
    | (opener, start) :: _ => .error (.neverClosed opener start)
    | [] => .ok [[]]
  | c :: rest =>
    let next := position + c.utf8Size
    if c = '[' ∨ c = '<' then extendFirst c <$> cut next ((c, position) :: opened) rest
    else if c = ',' ∧ opened = [] then ([] :: ·) <$> cut next opened rest
    else if c = ']' ∨ c = '>' then
      match opened with
      | [] => .error (.unexpectedClose c position)
      | (opener, _) :: outer =>
        if closes opener c then extendFirst c <$> cut next outer rest
        else .error (.mismatched opener c position)
    else extendFirst c <$> cut next opened rest

theorem length_le_of_mem_extendFirst {c : Char} {pieces : List (List Char)} {n : Nat}
    (h : ∀ p ∈ pieces, p.length ≤ n) {piece : List Char} (hp : piece ∈ extendFirst c pieces) :
    piece.length ≤ n + 1 := by
  cases pieces with
  | nil => simp_all [extendFirst]
  | cons p ps =>
    obtain rfl | hp := List.mem_cons.mp hp
    · exact Nat.succ_le_succ (h p List.mem_cons_self)
    · exact Nat.le_succ_of_le (h _ (List.mem_cons_of_mem _ hp))

theorem length_le_of_mem_cut {text : List Char} {position : Nat} {opened : List (Char × Nat)}
    {pieces : List (List Char)} (h : cut position opened text = .ok pieces) :
    ∀ piece ∈ pieces, piece.length ≤ text.length := by
  induction text generalizing position opened pieces with
  | nil =>
    unfold cut at h
    split at h <;> simp_all
    subst h; simp_all
  | cons c rest ih =>
    have kept : ∀ {next opened'}, extendFirst c <$> cut next opened' rest = .ok pieces →
        ∀ piece ∈ pieces, piece.length ≤ (c :: rest).length := by
      intro next opened' hk
      cases hm : cut next opened' rest <;> rw [hm] at hk <;> cases hk
      exact fun piece hp => length_le_of_mem_extendFirst (ih hm) hp
    unfold cut at h
    dsimp only at h
    split at h
    · exact kept h
    split at h
    · cases hm : cut (position + c.utf8Size) opened rest <;> rw [hm] at h <;> cases h
      intro piece hp
      obtain rfl | hp := List.mem_cons.mp hp
      · simp
      · exact Nat.le_succ_of_le (ih hm _ hp)
    split at h
    · split at h
      · cases h
      split at h
      · exact kept h
      · cases h
    · exact kept h

/-- The items of a bracketed text; a blank text has none. -/
def items (inner : List Char) : Except ParseError (List (List Char)) :=
  if trim inner = [] then .ok []
  else (cut 0 [] inner).mapError (⟨·, inner⟩)

theorem length_le_of_mem_items {inner : List Char} {pieces : List (List Char)}
    (h : items inner = .ok pieces) {piece : List Char} (hp : piece ∈ pieces) :
    piece.length ≤ inner.length := by
  unfold items at h
  split at h
  · cases h; simp at hp
  · cases hc : cut 0 [] inner <;> rw [hc] at h <;> cases h
    exact length_le_of_mem_cut hc _ hp

/-- One level of a text: its parts are still texts. -/
inductive Outline where
  | word
  | list (items : List (List Char))
  | times (item : List Char) (count : Option (List Char))

def Outline.parts : Outline → List (List Char)
  | .word => []
  | .list items => items
  | .times item _ => [item]

def outlineBody (body : List Char) : Except ParseError Outline :=
  match body with
  | '[' :: rest =>
    match dropLast? ']' rest with
    | none => .error ⟨.unclosedCollection, body⟩
    | some inner => .list <$> items inner
  | '<' :: rest =>
    match dropLast? '>' rest with
    | none => .error ⟨.unclosedRepetition, body⟩
    | some inner =>
      match items inner with
      | .error e => .error e
      | .ok [item] => .ok (.times item none)
      | .ok [item, count] => .ok (.times item (some count))
      | .ok others => .error ⟨.argumentCount others.length, body⟩
  | _ => .ok .word

theorem outlineBody_part_length {body : List Char} {o : Outline} (h : outlineBody body = .ok o)
    {part : List Char} (hp : part ∈ o.parts) : part.length < body.length := by
  unfold outlineBody at h
  split at h
  next rest =>
    split at h
    · cases h
    next inner hd =>
      cases hi : items inner <;> rw [hi] at h <;> cases h
      exact Nat.lt_succ_of_le (Nat.le_trans (length_le_of_mem_items hi hp) (dropLast?_length_le hd))
  next rest =>
    split at h
    · cases h
    next inner hd =>
      split at h
      · cases h
      iterate 2
        next hi =>
          cases h
          simp only [Outline.parts, List.mem_singleton] at hp
          subst hp
          exact Nat.lt_succ_of_le
            (Nat.le_trans (length_le_of_mem_items hi (by simp)) (dropLast?_length_le hd))
      · cases h
  next => cases h; simp [Outline.parts] at hp

def outline (text : List Char) : Except ParseError (Option String × List Char × Outline) :=
  if trim text = [] then .error ⟨.nothing, text⟩
  else
    let (label, body) := splitLabel (trim text)
    if body = [] then .error ⟨.nothingAfterLabel, trim text⟩
    else (fun o => (label, body, o)) <$> outlineBody body

theorem outline_part_length {text body : List Char} {label : Option String} {o : Outline}
    (h : outline text = .ok (label, body, o)) {part : List Char} (hp : part ∈ o.parts) :
    part.length < text.length := by
  have hl := Nat.le_trans (splitLabel_length_le (trim text)) (trim_length_le text)
  unfold outline at h
  split at h
  · cases h
  · dsimp only at h
    split at h
    · cases h
    · cases ho : outlineBody (splitLabel (trim text)).2 <;> rw [ho] at h <;> cases h
      exact Nat.lt_of_lt_of_le (outlineBody_part_length ho hp) hl

/-- `*` and no count at all stand for any number of copies. -/
def readRepetition (text : List Char) : Except ParseError (Option Nat) :=
  if trim text = ['*'] then .ok none
  else match readCount (trim text) with
    | none => .error ⟨.unreadableCount, trim text⟩
    | some n => if n > maxCount then .error ⟨.countTooLarge, trim text⟩ else .ok (some n)

def Phrase.parse (text : List Char) : Except ParseError Phrase :=
  match _h : outline text with
  | .error e => .error e
  | .ok (label, body, .word) => .ok (.word label body)
  | .ok (label, body, .list items) => do
    let phrases ← items.attach.mapM fun ⟨item, _⟩ => Phrase.parse item
    return .list label body phrases
  | .ok (label, body, .times item count) => do
    let phrase ← Phrase.parse item
    let copies ← count.elim (.ok none) readRepetition
    return .times label body phrase copies
termination_by text.length
decreasing_by
  · exact outline_part_length _h (by assumption)
  · exact outline_part_length _h (by simp [Outline.parts])

def checkExpansion (itemNodes count : Nat) (text : List Char) : Except ParseError Unit :=
  if itemNodes * count > maxNodes then .error ⟨.expansionTooLarge, text⟩ else .ok ()

/-- Items that print alike are printed once, with their number. -/
def printItems : List (List Char) → List Char
  | [] => ['[', ']']
  | first :: rest =>
    if rest.all (· == first) then
      '<' :: first ++ [',', ' '] ++ countText (rest.length + 1) ++ ['>']
    else '[' :: intercalate [',', ' '] (first :: rest) ++ [']']

def printLabel : Option String → List Char
  | none => []
  | some label => label.toList ++ [':', ' ']

end TickCircuit.Grammar
