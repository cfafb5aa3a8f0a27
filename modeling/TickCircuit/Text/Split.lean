/-!
Splitting a text at the first or at every occurrence of a mark. Main statements: the pieces put
back together give the text (`splitOnce_append`), so none is longer than it.
-/
namespace TickCircuit.Text

/-- What stands before and after the first occurrence of `mark`. -/
def splitOnce (mark : List Char) : List Char → Option (List Char × List Char)
  | [] => none
  | c :: rest =>
    if mark.isPrefixOf (c :: rest) then some ([], (c :: rest).drop mark.length)
    else (splitOnce mark rest).map fun (before, after) => (c :: before, after)

theorem splitOnce_append {mark s before after : List Char}
    (h : splitOnce mark s = some (before, after)) : s = before ++ mark ++ after := by
  induction s generalizing before with
  | nil => simp [splitOnce] at h
  | cons c rest ih =>
    rw [splitOnce] at h
    split at h
    next hp =>
      obtain ⟨t, ht⟩ := List.isPrefixOf_iff_prefix.mp hp
      simp only [Option.some.injEq, Prod.mk.injEq] at h
      obtain ⟨rfl, rfl⟩ := h
      simp [← ht]
    next =>
      obtain ⟨⟨b, a⟩, hs, hb⟩ := Option.map_eq_some_iff.mp h
      simp only [Prod.mk.injEq] at hb
      obtain ⟨rfl, rfl⟩ := hb
      simp [ih hs]

/-- The pieces between the occurrences of `mark`; always at least one. -/
def splitEvery (mark : Char) : List Char → List (List Char)
  | [] => [[]]
  | c :: rest =>
    if c = mark then [] :: splitEvery mark rest
    else match splitEvery mark rest with
      | [] => [[c]]
      | piece :: pieces => (c :: piece) :: pieces

def intercalate (mark : List Char) : List (List Char) → List Char
  | [] => []
  | [piece] => piece
  | piece :: pieces => piece ++ mark ++ intercalate mark pieces

def dropLast? (c : Char) (s : List Char) : Option (List Char) :=
  if s.getLast? = some c then some s.dropLast else none

theorem dropLast?_length_le {c : Char} {s t : List Char} (h : dropLast? c s = some t) :
    t.length ≤ s.length := by
  unfold dropLast? at h
  split at h <;> simp_all
  subst h; simp

end TickCircuit.Text
