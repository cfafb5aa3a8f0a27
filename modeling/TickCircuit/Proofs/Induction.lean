import TickCircuit.Port.Basic
/-!
Induction over interfaces, values and ports, with one hypothesis for all children of a node, and the
comparison of children place by place (`all_pairs_iff`).
-/
namespace TickCircuit

@[elab_as_elim, induction_eliminator]
theorem Interface.induct {motive : Interface → Prop}
    (bit : ∀ label, motive (.bit label)) (any : ∀ label, motive (.any label))
    (none : ∀ label, motive (.none label))
    (rest : ∀ label element, motive element → motive (.rest label element))
    (collection : ∀ label children, (∀ c ∈ children, motive c) →
      motive (.collection label children))
    (i : Interface) : motive i :=
  match i with
  | .bit l => bit l
  | .any l => any l
  | .none l => none l
  | .rest l e => rest l e (induct bit any none rest collection e)
  | .collection l cs => collection l cs fun c _ => induct bit any none rest collection c

@[elab_as_elim, induction_eliminator]
theorem Value.induct {motive : Value → Prop} (bit : ∀ label high, motive (.bit label high))
    (collection : ∀ label children, (∀ v ∈ children, motive v) →
      motive (.collection label children))
    (v : Value) : motive v :=
  match v with
  | .bit l b => bit l b
  | .collection l vs => collection l vs fun v _ => induct bit collection v

@[elab_as_elim, induction_eliminator]
theorem Port.induct {motive : Port → Prop}
    (mk : ∀ direction interface links subs, (∀ q ∈ subs, motive q) →
      motive ⟨direction, interface, links, subs⟩) (p : Port) : motive p :=
  match p with
  | ⟨d, i, ls, subs⟩ => mk d i ls subs fun q _ => induct mk q

theorem all_pairs_iff {α β : Type} {p : α → β → Bool} {all : List α → List β → Bool}
    (nil : all [] [] = true) (longer : ∀ a as, all (a :: as) [] = false)
    (shorter : ∀ b bs, all [] (b :: bs) = false)
    (cons : ∀ a as b bs, all (a :: as) (b :: bs) = (p a b && all as bs)) {as : List α}
    {bs : List β} : all as bs = true ↔ as.length = bs.length ∧
      ∀ (k : Nat) a b, as[k]? = some a → bs[k]? = some b → p a b = true := by
  induction as generalizing bs with
  | nil => cases bs <;> simp [nil, shorter]
  | cons a as ih =>
    cases bs with
    | nil => simp [longer]
    | cons b bs =>
      rw [cons, Bool.and_eq_true, ih, List.length_cons, List.length_cons, Nat.add_right_cancel_iff]
      constructor
      · rintro ⟨hab, hlength, hrest⟩
        refine ⟨hlength, fun k a' b' ha hb => ?_⟩
        cases k with
        | zero =>
          cases ha
          cases hb
          exact hab
        | succ k => exact hrest k a' b' ha hb
      · rintro ⟨hlength, hall⟩
        exact ⟨hall 0 a b rfl rfl, hlength, fun k => hall (k + 1)⟩

end TickCircuit
