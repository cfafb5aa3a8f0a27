import Mathlib.Logic.Basic
import TickCircuit.Json.Draft
import TickCircuit.Proofs.Text.Count
/-!
Texts and numerals of a document. A text reads back whatever it holds (`readText_printText`), and a
numeral is read as it is alone if nothing that could go on it follows (`readNumeral_append`).
-/
namespace TickCircuit.Json
open Text

def withPiece (p : Piece) (read : Option (List Piece × List Char)) :
    Option (List Piece × List Char) :=
  read.map fun (pieces, rest) => (p :: pieces, rest)

theorem readPieces_escape {name c : Char} (h : escapes.lookup name = some c) (hu : name ≠ 'u')
    (rest : List Char) : readPieces ('\\' :: name :: rest) = withPiece (.char c) (readPieces rest) := by
  rw [readPieces, h]
  · cases readPieces rest <;> rfl
  · rintro a b c d rest rfl
    exact absurd rfl hu

theorem readPieces_char {c : Char} (hquote : c ≠ '"') (hslash : c ≠ '\\') (hlow : ¬c.toNat < 0x20)
    (rest : List Char) : readPieces (c :: rest) = withPiece (.char c) (readPieces rest) := by
  rw [readPieces, if_neg (by simp [hslash, hlow])]
  · cases readPieces rest <;> rfl
  · exact hquote
  · exact fun _ _ _ _ _ h => absurd h hslash
  · exact fun _ _ h => absurd h hslash

theorem unitValue_hexDigit : ∀ n < 32,
    unitValue '0' '0' (hexDigit (n / 16)) (hexDigit (n % 16)) = some n := by decide

def piece (c : Char) : Piece :=
  if c.toNat < 0x20 ∧ c ∉ ['\x08', '\x0c', '\n', '\r', '\t'] then .unit c.toNat else .char c

theorem readPieces_escapeChar (c : Char) (rest : List Char) :
    readPieces (escapeChar c ++ rest) = withPiece (piece c) (readPieces rest) := by
  unfold escapeChar
  iterate 7
    split
    next h =>
      subst h
      exact readPieces_escape rfl (by decide) rest
  split
  next hlow =>
    have hpiece : piece c = .unit c.toNat := by
      simp [piece, *]
    have hunit := unitValue_hexDigit c.toNat hlow
    rw [hpiece]
    simp only [List.cons_append, List.nil_append, readPieces]
    rw [hunit]
    cases readPieces rest <;> rfl
  next hlow =>
    have hpiece : piece c = .char c := by simp [piece, hlow]
    rw [hpiece]
    exact readPieces_char ‹_› ‹_› hlow rest

theorem readPieces_flatMap (cs rest : List Char) :
    readPieces (cs.flatMap escapeChar ++ '"' :: rest) = some (cs.map piece, rest) := by
  induction cs with
  | nil => rw [List.flatMap_nil, List.nil_append, readPieces]; rfl
  | cons c cs ih =>
    rw [List.flatMap_cons, List.append_assoc, readPieces_escapeChar, ih]
    rfl

theorem joinPieces_piece (cs : List Char) : joinPieces (cs.map piece) = some cs := by
  induction cs with
  | nil => rfl
  | cons c cs ih =>
    rw [List.map_cons, piece]
    split
    next h =>
      have hlow : c.toNat < 0x20 := h.1
      have htrailing : isTrailing c.toNat = false := by
        simp only [isTrailing, Bool.and_eq_false_iff, decide_eq_false_iff_not]
        omega
      have hleading : isLeading c.toNat = false := by
        simp only [isLeading, Bool.and_eq_false_iff, decide_eq_false_iff_not]
        omega
      rw [joinPieces.eq_def]
      dsimp only
      rw [if_neg (by simp [htrailing]), if_neg (by simp [hleading]), ih, Char.ofNat_toNat]
      rfl
    next => rw [joinPieces, ih]; rfl

theorem printText_append (s : String) (rest : List Char) :
    printText s ++ rest = '"' :: (s.toList.flatMap escapeChar ++ '"' :: rest) := by
  simp [printText]

theorem readText_printText (s : String) (rest : List Char) :
    readText (s.toList.flatMap escapeChar ++ '"' :: rest) = some (some s, rest) := by
  rw [readText, readPieces_flatMap]
  change some (String.ofList <$> joinPieces (s.toList.map piece), rest) = _
  rw [joinPieces_piece]
  change some (some (String.ofList s.toList), rest) = _
  rw [String.ofList_toList]

def readParts (negative : Bool) (s : List Char) : Option (Numeral × List Char) :=
  if isWholePart (readDigits s).1 then do
    let (fraction, s') ← readFraction (readDigits s).2
    let (exponent, after) ← readExponent s'
    return (⟨negative, (readDigits s).1, fraction, exponent⟩, after)
  else none

theorem readNumeral_cons (c : Char) (s : List Char) : readNumeral (c :: s) =
    if c = '-' then readParts true s else readParts false (c :: s) := by
  split
  next h =>
    subst h
    simp only [readNumeral, readParts]
    cases isWholePart (readDigits s).1 <;> rfl
  next h =>
    unfold readNumeral readParts
    split
    next he =>
      split at he
      next hc => exact absurd (List.cons.inj hc).1 h
      next =>
        cases he
        dsimp only
        cases isWholePart (readDigits (c :: s)).1 <;> rfl

theorem readParts_eq_some {negative : Bool} {s after : List Char} {n : Numeral} :
    readParts negative s = some (n, after) ↔ ∃ fraction s' exponent,
      isWholePart (readDigits s).1 = true ∧ readFraction (readDigits s).2 = some (fraction, s') ∧
      readExponent s' = some (exponent, after) ∧
      n = ⟨negative, (readDigits s).1, fraction, exponent⟩ := by
  unfold readParts
  constructor
  · intro h
    split at h
    next hwhole =>
      obtain ⟨⟨fraction, s'⟩, hf, h⟩ := Option.bind_eq_some_iff.mp h
      obtain ⟨⟨exponent, after'⟩, he, h⟩ := Option.bind_eq_some_iff.mp h
      cases h
      exact ⟨fraction, s', exponent, hwhole, hf, he, rfl⟩
    next => cases h
  · rintro ⟨fraction, s', exponent, hwhole, hf, he, rfl⟩
    rw [if_pos hwhole, hf]
    change (readExponent s' >>= fun (exponent, after) => some (_, after)) = _
    rw [he]
    rfl

def Stops (rest : List Char) : Prop :=
  ∀ c, rest.head? = some c → c.isDigit = false ∧ c ≠ '.' ∧ c ≠ 'e' ∧ c ≠ 'E'

section Numeral
variable {rest : List Char} (hrest : Stops rest)
include hrest

theorem readDigits_append (s : List Char) :
    readDigits (s ++ rest) = ((readDigits s).1, (readDigits s).2 ++ rest) := by
  induction s with
  | nil =>
    cases rest with
    | nil => rfl
    | cons c rest =>
      have hc := (hrest c rfl).1
      simp [readDigits, hc]
  | cons c s ih =>
    simp only [readDigits, Prod.mk.injEq] at ih ⊢
    by_cases hc : c.isDigit
    · simp [hc, ih]
    · simp [hc]

theorem readFraction_append {s digits after : List Char}
    (h : readFraction s = some (digits, after)) :
    readFraction (s ++ rest) = some (digits, after ++ rest) := by
  unfold readFraction at h
  split at h
  next s =>
    dsimp only at h
    rw [List.cons_append, readFraction, readDigits_append hrest]
    dsimp only
    split at h
    · cases h
    next hne =>
      cases h
      rw [if_neg hne]
  next hpoint =>
    cases h
    have hhead : ∀ t, s ++ rest ≠ '.' :: t := by
      intro t ht
      cases s with
      | nil =>
        rw [List.nil_append] at ht
        exact (hrest '.' (by rw [ht]; rfl)).2.1 rfl
      | cons c s =>
        cases ht
        exact hpoint s rfl
    rw [readFraction]
    exact hhead

omit hrest in
theorem readExponentSign_append (c : Char) (s : List Char) : readExponentSign (c :: s ++ rest) =
    ((readExponentSign (c :: s)).1, (readExponentSign (c :: s)).2 ++ rest) := by
  by_cases hplus : c = '+'
  · subst hplus
    rfl
  by_cases hminus : c = '-'
  · subst hminus
    rfl
  have hsign : ∀ t, readExponentSign (c :: t) = (false, c :: t) := by
    intro t
    rw [readExponentSign]
    · exact fun _ h => hplus (List.cons.inj h).1
    · exact fun _ h => hminus (List.cons.inj h).1
  rw [hsign, List.cons_append, hsign]

theorem readExponent_append {s after : List Char} {exponent : Option (Bool × List Char)}
    (h : readExponent s = some (exponent, after)) :
    readExponent (s ++ rest) = some (exponent, after ++ rest) := by
  cases s with
  | nil =>
    cases h
    cases rest with
    | nil => rfl
    | cons c rest =>
      have hc := (hrest c rfl).2.2
      simp [readExponent, hc.1, hc.2]
  | cons c s =>
    rw [readExponent] at h
    rw [List.cons_append, readExponent]
    split at h
    next hc =>
      rw [if_pos hc]
      cases s with
      | nil => cases h
      | cons d s =>
        rw [readExponentSign_append]
        dsimp only at h ⊢
        rw [readDigits_append hrest]
        split at h
        · cases h
        next hne =>
          cases h
          rw [if_neg hne]
    next hc =>
      cases h
      rw [if_neg hc]
      rfl

theorem readParts_append {negative : Bool} {s after : List Char} {n : Numeral}
    (h : readParts negative s = some (n, after)) :
    readParts negative (s ++ rest) = some (n, after ++ rest) := by
  obtain ⟨fraction, s', exponent, hwhole, hf, he, rfl⟩ := readParts_eq_some.mp h
  refine readParts_eq_some.mpr ⟨fraction, s' ++ rest, exponent, ?_, ?_, ?_, ?_⟩
  · rwa [readDigits_append hrest]
  · rw [readDigits_append hrest]
    exact readFraction_append hrest hf
  · exact readExponent_append hrest he
  · rw [readDigits_append hrest]

theorem readNumeral_append {s after : List Char} {n : Numeral}
    (h : readNumeral s = some (n, after)) : readNumeral (s ++ rest) = some (n, after ++ rest) := by
  cases s with
  | nil => cases h
  | cons c s =>
    rw [readNumeral_cons] at h
    rw [List.cons_append, readNumeral_cons]
    split at h
    next hc =>
      rw [if_pos hc]
      exact readParts_append hrest h
    next hc =>
      rw [if_neg hc]
      exact readParts_append hrest h

end Numeral

theorem exists_cons_of_readNumeral {s after : List Char} {n : Numeral}
    (h : readNumeral s = some (n, after)) : ∃ c t, s = c :: t ∧ (c = '-' ∨ c.isDigit) := by
  cases s with
  | nil => cases h
  | cons c s =>
    refine ⟨c, s, rfl, or_iff_not_imp_left.mpr fun hc => ?_⟩
    rw [readNumeral_cons, if_neg hc] at h
    obtain ⟨-, -, -, hwhole, -⟩ := readParts_eq_some.mp h
    cases hd : c.isDigit with
    | true => rfl
    | false => simp [readDigits, hd, isWholePart] at hwhole

end TickCircuit.Json
