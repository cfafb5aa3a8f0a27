import TickCircuit.Text.Blank
import TickCircuit.Text.Count
/-!
Counts read back as they were written, up to the limit of one machine word
(`readCount_countText`).
-/
namespace TickCircuit.Text

theorem isBlank_of_isDigit {c : Char} (h : c.isDigit) : isBlank c = false := by
  have hrange : 48 ≤ c.toNat ∧ c.toNat ≤ 57 := by
    simpa [Char.isDigit, UInt32.le_iff_toNat_le] using h
  simp [isBlank]
  omega

theorem ne_of_isDigit {c d : Char} (h : c.isDigit) (hd : d.isDigit = false) : c ≠ d := by
  rintro rfl
  simp [hd] at h

theorem isDigit_of_mem_countText {n : Nat} {c : Char} (h : c ∈ countText n) : c.isDigit :=
  Nat.isDigit_of_mem_toDigits (by decide) (by decide) h

theorem countText_ne {n : Nat} {c : Char} (h : c.isDigit = false) (s : List Char) :
    countText n ≠ c :: s := by
  intro he
  have hc : c.isDigit := isDigit_of_mem_countText (he ▸ List.mem_cons_self)
  simp [h] at hc

theorem countText_ne_nil (n : Nat) : countText n ≠ [] := Nat.toDigits_ne_nil

theorem digitsValue_countText (n : Nat) : digitsValue (countText n) = n := by
  have h := Nat.ofDigitChars_ten_toDigits (n := n)
  rwa [Nat.ofDigitChars_eq_foldl] at h

theorem countText_injective {m n : Nat} (h : countText m = countText n) : m = n := by
  rw [← digitsValue_countText m, h, digitsValue_countText]

theorem readCount_countText {n : Nat} (h : n < wordLimit) : readCount (countText n) = some n := by
  have hall : (countText n).all Char.isDigit = true :=
    List.all_eq_true.mpr fun _ => isDigit_of_mem_countText
  rw [readCount, digitsValue_countText, if_pos ⟨countText_ne_nil n, hall, h⟩]
  exact countText_ne rfl

theorem eq_of_readCount_countText {m n : Nat} (h : readCount (countText m) = some n) : m = n := by
  rw [readCount, digitsValue_countText, Option.ite_none_right_eq_some] at h
  · exact Option.some.inj h.2
  · exact countText_ne rfl

theorem isDigit_of_readCount {s : List Char} {n : Nat} (h : readCount s = some n) :
    s ≠ [] ∧ ∀ c ∈ s, c = '+' ∨ c.isDigit := by
  unfold readCount at h
  dsimp only at h
  rw [Option.ite_none_right_eq_some] at h
  obtain ⟨⟨hne, hall, -⟩, -⟩ := h
  split at hall
  next rest =>
    refine ⟨nofun, fun c hc => ?_⟩
    obtain rfl | hc := List.mem_cons.mp hc
    · exact .inl rfl
    · exact .inr (List.all_eq_true.mp hall c hc)
  next =>
    have hs : s ≠ [] := by
      rintro rfl
      exact hne rfl
    exact ⟨hs, fun c hc => .inr (List.all_eq_true.mp hall c hc)⟩

theorem readCount_lt {s : List Char} {n : Nat} (h : readCount s = some n) : n < wordLimit := by
  unfold readCount at h
  dsimp only at h
  rw [Option.ite_none_right_eq_some] at h
  obtain ⟨⟨-, -, hlt⟩, hn⟩ := h
  rwa [Option.some.inj hn] at hlt

end TickCircuit.Text
