import TickCircuit.Json.Draft
import TickCircuit.Proofs.Double.Finite
/-!
The numbers of a document. A numeral that is out of range has no value, so every number that was
read is finite (`Draft.finite_ofText`).
-/
namespace TickCircuit.Json
open Double

theorem isAtLeastTwo_powerOfTen {n : Nat} (hn : 0 < n) (hmax : n ≤ 308) :
    isAtLeastTwo (powerOfTen n) = true := by
  have htable : ∀ k < 22, isAtLeastTwo (powerOfTen (k + 1)) = true := by decide +kernel
  obtain hsmall | hlarge := Nat.lt_or_ge n 23
  · obtain ⟨k, rfl⟩ := Nat.exists_eq_add_one_of_ne_zero hn.ne'
    exact htable k (by omega)
  · obtain rfl | hlt := Nat.eq_or_lt_of_le hmax
    · decide +kernel
    · exact isAtLeastTwo_ofScientific hlarge (by omega)

theorem isFinite_powerOfTen {n : Nat} (hmax : n ≤ 308) : (powerOfTen n).isFinite = true := by
  obtain rfl | hn := Nat.eq_zero_or_pos n
  · decide +kernel
  · exact isFinite_of_isAtLeastTwo (isAtLeastTwo_powerOfTen hn hmax)

theorem isFinite_scale {x y : Float} {exponent : Int} (hx : x.isFinite = true)
    (h : scale x exponent = some y) : y.isFinite = true := by
  fun_induction scale x exponent with
  | case1 x exponent hmax hneg =>
    cases h
    exact isFinite_div hx (isAtLeastTwo_powerOfTen (by omega) hmax)
  | case2 => cases h
  | case3 x exponent hmax _ product hinf =>
    exact Option.some.inj h ▸ isFinite_mul hx (isFinite_powerOfTen hmax) hinf
  | case4 =>
    cases h
    exact hx
  | case5 => cases h
  | case6 x exponent _ _ _ ih =>
    exact ih (isFinite_div hx (isAtLeastTwo_powerOfTen (by decide) (Nat.le_refl 308))) h

theorem Number.isFinite_toFloat {n : Number} (h : ∀ x, n = .real x → x.isFinite = true) :
    n.toFloat.isFinite = true := by
  cases n with
  | whole n =>
    by_cases hn : n < 0
    · rw [toFloat, if_pos hn]
      exact isFinite_neg (Double.isFinite_toFloat _)
    · rw [toFloat, if_neg hn]
      exact Double.isFinite_toFloat _
  | real x => exact h x rfl

theorem Numeral.isFinite_value {numeral : Numeral} {n : Number} (h : numeral.value = some n) :
    n.toFloat.isFinite = true := by
  have hsigned : ∀ {x : Float}, x.isFinite = true →
      (Number.real (if numeral.negative then -x else x)).toFloat.isFinite = true := by
    intro x hx
    change (if numeral.negative then -x else x).isFinite = true
    split
    · exact isFinite_neg hx
    · exact hx
  have hscaled : ∀ {x : Float} {exponent : Int}, x.isFinite = true →
      (fun x => Number.real (if numeral.negative then -x else x)) <$> scale x exponent = some n →
      n.toFloat.isFinite = true := by
    intro x exponent hx hn
    obtain ⟨y, hy, rfl⟩ := Option.map_eq_some_iff.mp hn
    exact hsigned (isFinite_scale hx hy)
  unfold value at h
  dsimp only at h
  split at h
  · split at h
    · cases h
      exact Number.isFinite_toFloat nofun
    · split at h
      · cases h
        exact hsigned (Double.isFinite_toFloat _)
      · cases h
        exact Number.isFinite_toFloat nofun
  · split at h
    · exact hscaled (Double.isFinite_toFloat _) h
    · split at h
      · split at h
        · cases h
        · cases h
          exact hsigned (by decide +kernel)
      · exact hscaled (Double.isFinite_toFloat _) h

namespace Draft

/-- Every number of the draft has a finite value. -/
inductive Finite : Draft → Prop
  | null : Finite .null
  | bool {b} : Finite (.bool b)
  | number {n : Option Number} : (∀ m ∈ n, m.toFloat.isFinite = true) → Finite (.number n)
  | text {s} : Finite (.text s)
  | list {items} : (∀ v ∈ items, Finite v) → Finite (.list items)
  | object {members} : (∀ m ∈ members, Finite m.2) → Finite (.object members)
  | broken : Finite .broken

theorem Finite.items {items : List Draft} : Finite (.list items) → ∀ v ∈ items, v.Finite
  | .list h => h

theorem Finite.members {members : List (Option String × Draft)} :
    Finite (.object members) → ∀ m ∈ members, m.2.Finite
  | .object h => h

theorem finite_readWord (s : List Char) : (readWord s).1.Finite := by
  unfold readWord
  split
  · exact .bool
  · exact .bool
  · exact .null
  · split
    · exact .number fun n hn => Numeral.isFinite_value hn
    · exact .broken

section Reading
variable {fuel : Nat}

theorem finite_readValue_succ (hitems : ∀ s, ∀ v ∈ (readItems fuel s).1, v.Finite)
    (hmembers : ∀ s, ∀ m ∈ (readMembers fuel s).1, m.2.Finite) (s : List Char) :
    (readValue (fuel + 1) s).1.Finite := by
  unfold readValue
  split
  · split
    · exact .list nofun
    · exact .list (hitems _)
  · split
    · exact .object nofun
    · exact .object (hmembers _)
  · split
    · exact .text
    · exact .broken
  · exact finite_readWord _

theorem finite_readItems_succ (hvalue : ∀ s, (readValue fuel s).1.Finite)
    (hitems : ∀ s, ∀ v ∈ (readItems fuel s).1, v.Finite) (s : List Char) :
    ∀ v ∈ (readItems (fuel + 1) s).1, v.Finite := by
  unfold readItems
  split
  next v hread =>
    have hv : v.Finite := by simpa [hread] using hvalue s
    exact List.forall_mem_singleton.mpr hv
  next v rest hread =>
    have hv : v.Finite := by simpa [hread] using hvalue s
    split
    · exact List.forall_mem_cons.mpr ⟨hv, hitems _⟩
    · exact List.forall_mem_singleton.mpr hv
    · exact List.forall_mem_cons.mpr ⟨hv, List.forall_mem_singleton.mpr .broken⟩

theorem finite_readMembers_succ (hvalue : ∀ s, (readValue fuel s).1.Finite)
    (hmembers : ∀ s, ∀ m ∈ (readMembers fuel s).1, m.2.Finite) (s : List Char) :
    ∀ m ∈ (readMembers (fuel + 1) s).1, m.2.Finite := by
  have hbroken : ∀ key : Option String, ∀ m ∈ [(key, Draft.broken)], m.2.Finite := fun _ =>
    List.forall_mem_singleton.mpr .broken
  unfold readMembers
  split
  · split
    · exact hbroken none
    next key _ _ =>
      split
      next rest _ =>
        split
        next v hread =>
          have hv : v.Finite := by simpa [hread] using hvalue rest
          exact List.forall_mem_singleton.mpr hv
        next v after hread =>
          have hv : v.Finite := by simpa [hread] using hvalue rest
          split
          · exact List.forall_mem_cons.mpr ⟨hv, hmembers _⟩
          · exact List.forall_mem_singleton.mpr hv
          · exact List.forall_mem_cons.mpr ⟨hv, hbroken none⟩
      · exact hbroken key
  · exact hbroken none

/-- By induction on the fuel, for values, items and members at once. -/
theorem finite_read (fuel : Nat) : (∀ s, (readValue fuel s).1.Finite) ∧
    (∀ s, ∀ v ∈ (readItems fuel s).1, v.Finite) ∧
    ∀ s, ∀ m ∈ (readMembers fuel s).1, m.2.Finite := by
  induction fuel with
  | zero =>
    exact ⟨fun _ => .broken, fun _ => List.forall_mem_singleton.mpr .broken,
      fun _ => List.forall_mem_singleton.mpr .broken⟩
  | succ fuel ih =>
    obtain ⟨hvalue, hitems, hmembers⟩ := ih
    exact ⟨finite_readValue_succ hitems hmembers, finite_readItems_succ hvalue hitems,
      finite_readMembers_succ hvalue hmembers⟩

end Reading

theorem finite_ofText (text : String) : (ofText text).1.Finite :=
  (finite_read (2 * text.toList.length + 2)).1 text.toList

end Draft
end TickCircuit.Json
