import TickCircuit.Proofs.Port.Links
/-!
The shape of a port. At every depth a port has a direction, one sub-port for each child of a
collection, and sub-ports of the types that its interface gives them. Main statements: a new port
has its shape (`shaped_new`), and retyping and growing keep it (`Shaped.retyped`, `Shaped.grow`).
-/
namespace TickCircuit

theorem Interface.child?_of_lt_arity {i : Interface} {k : Nat} (h : k < i.arity) :
    ∃ c, i.child? k = some c := by
  cases i with
  | collection l cs => exact ⟨cs[k], List.getElem?_eq_getElem h⟩
  | _ => cases h

namespace Port

/-- What the shape says of one port, of its sub-ports only the interfaces. -/
structure Fits (d : Direction) (p : Port) : Prop where
  direction : p.direction = d
  child : ∀ {k q}, p.subs[k]? = some q → p.interface.child? k = some q.interface
  arity : p.interface.arity ≤ p.subs.length

inductive Shaped (d : Direction) : Port → Prop where
  | mk {p : Port} (fits : p.Fits d) (subs : ∀ q ∈ p.subs, Shaped d q) : Shaped d p

theorem Fits.length_subs {d : Direction} {p : Port} (h : p.Fits d) {l : Option String}
    {cs : List Interface} (hi : p.interface = .collection l cs) : p.subs.length = cs.length := by
  have ha := h.arity
  rw [hi] at ha
  refine Nat.le_antisymm (Nat.le_of_not_lt fun hlt => ?_) ha
  have hc := h.child (List.getElem?_eq_getElem hlt)
  rw [hi, Interface.child?, List.getElem?_eq_none (Nat.le_refl _)] at hc
  cases hc

namespace Shaped
variable {d : Direction} {p q : Port}

theorem fits (h : p.Shaped d) : p.Fits d := by
  cases h with
  | mk h _ => exact h

theorem sub {k : Nat} (h : p.Shaped d) (hq : p.subs[k]? = some q) : q.Shaped d := by
  cases h with
  | mk _ h => exact h q (List.mem_of_getElem? hq)

end Shaped

theorem interface_new (d : Direction) (i : Interface) : (new d i).interface = i := by
  cases i <;> rfl

theorem direction_new (d : Direction) (i : Interface) : (new d i).direction = d := by
  cases i <;> rfl

theorem getElem?_subs_new (d : Direction) (i : Interface) (k : Nat) :
    (new d i).subs[k]? = if k < i.arity then (i.child? k).map (new d) else none := by
  cases i with
  | collection l cs =>
    simp only [new, newAll_eq_map, List.getElem?_map, Interface.arity, Interface.child?]
    by_cases hk : k < cs.length
    · simp [hk]
    · simp [List.getElem?_eq_none (Nat.le_of_not_lt hk)]
  | _ => simp [new, Interface.arity]

theorem length_subs_new (d : Direction) (i : Interface) : (new d i).subs.length = i.arity := by
  cases i <;> simp [new, newAll_eq_map, Interface.arity]

theorem fits_new (d : Direction) (i : Interface) : (new d i).Fits d where
  direction := direction_new d i
  child {k q} h := by
    rw [getElem?_subs_new] at h
    split at h
    · obtain ⟨c, hc, rfl⟩ := Option.map_eq_some_iff.mp h
      simp [interface_new, hc]
    · cases h
  arity := Nat.le_of_eq (by rw [interface_new, length_subs_new])

theorem shaped_new (d : Direction) (i : Interface) : (new d i).Shaped d := by
  induction i with
  | collection l cs ih =>
    refine ⟨fits_new d _, fun q hq => ?_⟩
    simp only [new, newAll_eq_map, List.mem_map] at hq
    obtain ⟨c, hc, rfl⟩ := hq
    exact ih c hc
  | _ => exact ⟨fits_new d _, by simp [new]⟩

theorem shaped_of_getElem? {d : Direction} {p : Port} (fits : p.Fits d)
    (subs : ∀ (k : Nat) q, p.subs[k]? = some q → q.Shaped d) : p.Shaped d := by
  refine ⟨fits, fun q hq => ?_⟩
  obtain ⟨k, hk⟩ := List.getElem?_of_mem hq
  exact subs k q hk

theorem Shaped.retyped {d : Direction} {p : Port} (h : p.Shaped d) (target : Interface) :
    (p.retyped target).Shaped d := by
  induction p generalizing target with
  | mk d' i ls subs ih =>
    have hsub : ∀ k q, (Port.retyped target ⟨d', i, ls, subs⟩).subs[k]? = some q →
        ∃ c, target.child? k = some c ∧
          (q = new d c ∨ ∃ r, subs[k]? = some r ∧ q = r.retyped c) := by
      intro k q hq
      rw [getElem?_subs_retyped] at hq
      obtain ⟨c, hc, hq⟩ := Option.bind_eq_some_iff.mp hq
      refine ⟨c, hc, ?_⟩
      cases hs : subs[k]? with
      | none =>
        have hd : d' = d := h.fits.direction
        simp only [hs, Option.elim_none, Option.ite_none_right_eq_some, hd] at hq
        cases hq.2
        exact .inl rfl
      | some r =>
        simp only [hs, Option.elim_some, Function.comp, Option.some.injEq] at hq
        exact .inr ⟨r, rfl, hq.symm⟩
    refine shaped_of_getElem? ⟨?_, ?_, ?_⟩ ?_
    · rw [direction_retyped]
      exact h.fits.direction
    · intro k q hq
      obtain ⟨c, hc, rfl | ⟨r, -, rfl⟩⟩ := hsub k q hq
      · rw [interface_retyped, interface_new, hc]
      · rw [interface_retyped, interface_retyped, hc]
    · rw [interface_retyped]
      refine Nat.le_of_not_lt fun hlt => ?_
      obtain ⟨c, hc⟩ := Interface.child?_of_lt_arity hlt
      have hn := getElem?_subs_retyped target ⟨d', i, ls, subs⟩
        (Port.retyped target ⟨d', i, ls, subs⟩).subs.length
      rw [List.getElem?_eq_none (Nat.le_refl _), hc, Option.bind_some, if_pos hlt] at hn
      cases hs : subs[(Port.retyped target ⟨d', i, ls, subs⟩).subs.length]? <;> simp [hs] at hn
    · intro k q hq
      obtain ⟨c, hc, rfl | ⟨r, hr, rfl⟩⟩ := hsub k q hq
      · exact shaped_new d c
      · exact ih r (List.mem_of_getElem? hr) (h.sub hr) c

theorem Shaped.modifyAt {d : Direction} {p : Port} (h : p.Shaped d) {f : Port → Port}
    (hf : ∀ q, f q = { q with links := (f q).links }) (path : Path) :
    (Port.modifyAt f path p).Shaped d ∧ (Port.modifyAt f path p).interface = p.interface := by
  induction path generalizing p with
  | nil =>
    obtain ⟨fits, subs⟩ := h
    rw [Port.modifyAt, hf]
    exact ⟨⟨⟨fits.direction, fits.child, fits.arity⟩, subs⟩, rfl⟩
  | cons i rest ih =>
    refine ⟨shaped_of_getElem? ⟨h.fits.direction, ?_, ?_⟩ ?_, rfl⟩
    · intro k q hq
      simp only [Port.modifyAt, List.getElem?_modify] at hq ⊢
      obtain ⟨r, hr, rfl⟩ := Option.map_eq_some_iff.mp hq
      rw [h.fits.child hr]
      split
      · rw [(ih (h.sub hr)).2]
      · rfl
    · simpa [Port.modifyAt] using h.fits.arity
    · intro k q hq
      simp only [Port.modifyAt, List.getElem?_modify] at hq
      obtain ⟨r, hr, rfl⟩ := Option.map_eq_some_iff.mp hq
      split
      · exact (ih (h.sub hr)).1
      · exact h.sub hr

theorem Shaped.detach {d : Direction} {p : Port} (h : p.Shaped d) (path : Path) (id : LinkId) :
    (p.detach path id).Shaped d ∧ (p.detach path id).interface = p.interface :=
  h.modifyAt (fun _ => rfl) path

theorem Shaped.append {d : Direction} {p : Port} (h : p.Shaped d) {more : List Port}
    (hm : ∀ (k : Nat) q, more[k]? = some q →
      ∃ c, p.interface.child? (p.subs.length + k) = some c ∧ q = new d c) :
    ({ p with subs := p.subs ++ more } : Port).Shaped d := by
  have hget : ∀ (k : Nat) q, (p.subs ++ more)[k]? = some q → p.subs[k]? = some q ∨
      ∃ c, p.interface.child? k = some c ∧ q = new d c := by
    intro k q hq
    by_cases hk : k < p.subs.length
    · rw [List.getElem?_append_left hk] at hq
      exact .inl hq
    · rw [List.getElem?_append_right (Nat.le_of_not_lt hk)] at hq
      obtain ⟨c, hc, rfl⟩ := hm _ q hq
      rw [Nat.add_sub_cancel' (Nat.le_of_not_lt hk)] at hc
      exact .inr ⟨c, hc, rfl⟩
  refine shaped_of_getElem? ⟨h.fits.direction, ?_, ?_⟩ ?_
  · intro k q hq
    obtain hq | ⟨c, hc, rfl⟩ := hget k q hq
    · exact h.fits.child hq
    · rw [interface_new]
      exact hc
  · rw [List.length_append]
    exact Nat.le_add_right_of_le h.fits.arity
  · intro k q hq
    obtain hq | ⟨c, -, rfl⟩ := hget k q hq
    · exact h.sub hq
    · exact shaped_new d c

theorem Shaped.set {d : Direction} {p q r : Port} (h : p.Shaped d) {i : Nat}
    (hq : p.subs[i]? = some q) (hr : r.Shaped d) (hi : r.interface = q.interface) :
    ({ p with subs := p.subs.set i r } : Port).Shaped d := by
  have hlt := (List.getElem?_eq_some_iff.mp hq).1
  refine shaped_of_getElem? ⟨h.fits.direction, ?_, ?_⟩ ?_
  · intro k s hs
    by_cases hk : i = k
    · subst hk
      rw [List.getElem?_set_self hlt] at hs
      cases hs
      rw [hi]
      exact h.fits.child hq
    · rw [List.getElem?_set_ne hk] at hs
      exact h.fits.child hs
  · rw [List.length_set]
    exact h.fits.arity
  · intro k s hs
    by_cases hk : i = k
    · subst hk
      rw [List.getElem?_set_self hlt] at hs
      cases hs
      exact hr
    · rw [List.getElem?_set_ne hk] at hs
      exact h.sub hs

theorem Shaped.grow {d : Direction} {p : Port} (h : p.Shaped d) (path : Path) :
    (Port.grow path p).1.Shaped d ∧ (Port.grow path p).1.interface = p.interface := by
  induction path generalizing p with
  | nil => exact ⟨h, rfl⟩
  | cons i rest ih =>
    have hm : ∀ (k : Nat) q,
        (fresh p.direction p.interface p.subs.length (i + 1 - p.subs.length)).1[k]? = some q →
          ∃ c, p.interface.child? (p.subs.length + k) = some c ∧ q = new d c := by
      intro k q hq
      rw [← h.fits.direction]
      exact getElem?_fresh hq
    have happ := h.append hm
    unfold Port.grow
    dsimp only
    split
    · exact ⟨happ, rfl⟩
    · exact ⟨happ, rfl⟩
    next sub _ hsub =>
      have hs := ih (happ.sub hsub)
      exact ⟨happ.set hsub hs.1 hs.2, rfl⟩

end Port
end TickCircuit
