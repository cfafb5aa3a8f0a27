import TickCircuit.Proofs.Interface.Merge
/-!
Merging again. What a merge yields, labels included, takes in both sides of it without a change
(`merge_absorbs`).
-/
namespace TickCircuit

theorem mapM_again {α ε : Type} {f g : α → Except ε α} {xs ys : List α} (h : xs.mapM f = .ok ys)
    (hagain : ∀ x ∈ xs, ∀ y, f x = .ok y → g y = .ok y) : ys.mapM g = .ok ys := by
  obtain ⟨pairs, rfl, rfl, hpairs⟩ := mapM_eq_ok_iff_pairs.mp h
  refine mapM_eq_ok_iff_pairs.mpr ⟨pairs.map fun p => (p.2, p.2), ?_, ?_, fun p hp => ?_⟩
  · rw [List.map_map]
    rfl
  · rw [List.map_map]
    rfl
  · obtain ⟨q, hq, rfl⟩ := List.mem_map.mp hp
    exact hagain q.1 (List.mem_map_of_mem hq) q.2 (hpairs q hq)

namespace Interface

theorem or_left (l m : Option String) : (l <|> l <|> m) = (l <|> m) := by
  cases l <;> rfl

theorem or_right (l m : Option String) : ((l <|> m) <|> m) = (l <|> m) := by
  cases l <;> cases m <;> rfl

theorem mergeAll_eq_ok {as bs ms : List Interface} (hl : as.length = bs.length) :
    mergeAll as bs = .ok ms ↔ ms.length = as.length ∧
      ∀ (k : Nat) a b, as[k]? = some a → bs[k]? = some b →
        ∃ m, ms[k]? = some m ∧ a.merge b = .ok m := by
  refine ⟨of_mergeAll hl, fun h => ?_⟩
  rw [mergeAll_eq_mapM hl, mapM_eq_ok, List.length_zip, ← hl, Nat.min_self]
  refine ⟨h.1, fun k x hx => ?_⟩
  obtain ⟨ha, hb⟩ := List.getElem?_zip_eq_some.mp hx
  exact h.2 k x.1 x.2 ha hb

theorem merge_self (a : Interface) : a.merge a = .ok a := by
  induction a with
  | bit l | any l | none l => simp [merge]
  | rest l e ih => simp [merge, ih, Functor.map, Except.map]
  | collection l cs ih =>
    have hcs : mergeAll cs cs = .ok cs := by
      refine (mergeAll_eq_ok rfl).mpr ⟨rfl, fun k a b ha hb => ?_⟩
      cases ha.symm.trans hb
      exact ⟨a, ha, ih a (List.mem_of_getElem? ha)⟩
    simp [merge, hcs, Functor.map, Except.map]

theorem merge_absorbs {a b m : Interface} (h : a.merge b = .ok m) :
    a.merge m = .ok m ∧ m.merge b = .ok m := by
  induction a generalizing b m with
  | any l =>
    rw [merge] at h
    cases h
    exact ⟨by rw [merge], merge_self b⟩
  | bit l | none l => cases b <;> simp [merge] at h <;> subst h <;> simp [merge]
  | rest l e ih =>
    cases b with
    | bit l' => simp [merge] at h
    | any l' | none l' =>
      simp only [merge, Except.ok.injEq] at h
      subst h
      exact ⟨merge_self _, by simp [merge]⟩
    | rest l' f =>
      obtain ⟨m', hm, rfl⟩ := merge_rest_rest_eq_ok.mp h
      obtain ⟨hleft, hright⟩ := ih hm
      rw [merge_rest_rest_eq_ok, merge_rest_rest_eq_ok]
      exact ⟨⟨m', hleft, congrArg (rest · m') (or_left l l')⟩,
        m', hright, congrArg (rest · m') (or_right l l')⟩
    | collection l' cs =>
      obtain ⟨ms, hm, rfl⟩ := merge_rest_collection_eq_ok.mp h
      obtain ⟨hl, hall⟩ := mapM_eq_ok.mp hm
      have hleft : ms.mapM e.merge = .ok ms := mapM_again hm fun c _ m hcm => (ih hcm).1
      have hright : mergeAll ms cs = .ok ms := by
        refine (mergeAll_eq_ok hl).mpr ⟨rfl, fun k m c hk hc => ?_⟩
        obtain ⟨m', hk', hcm⟩ := hall k c hc
        cases hk.symm.trans hk'
        exact ⟨m, hk, (ih hcm).2⟩
      rw [merge_rest_collection_eq_ok, merge_collection_collection_eq_ok]
      exact ⟨⟨ms, hleft, congrArg (collection · ms) (or_left l l')⟩,
        hl, ms, hright, congrArg (collection · ms) (or_right l l')⟩
  | collection l as ih =>
    cases b with
    | bit l' => simp [merge] at h
    | any l' | none l' =>
      simp only [merge, Except.ok.injEq] at h
      subst h
      exact ⟨merge_self _, by simp [merge]⟩
    | rest l' e =>
      obtain ⟨ms, hm, rfl⟩ := merge_collection_rest_eq_ok.mp h
      obtain ⟨hl, hall⟩ := mapM_eq_ok.mp hm
      have hleft : mergeAll as ms = .ok ms := by
        refine (mergeAll_eq_ok hl.symm).mpr ⟨hl, fun k a m ha hk => ?_⟩
        obtain ⟨m', hk', ham⟩ := hall k a ha
        cases hk.symm.trans hk'
        exact ⟨m, hk, (ih a (List.mem_of_getElem? ha) ham).1⟩
      have hright : ms.mapM (merge · e) = .ok ms := mapM_again hm fun a ha m ham => (ih a ha ham).2
      rw [merge_collection_collection_eq_ok, merge_collection_rest_eq_ok]
      exact ⟨⟨hl.symm, ms, hleft, congrArg (collection · ms) (or_left l l')⟩,
        ms, hright, congrArg (collection · ms) (or_right l l')⟩
    | collection l' bs =>
      obtain ⟨hl, ms, hm, rfl⟩ := merge_collection_collection_eq_ok.mp h
      obtain ⟨hlm, hall⟩ := of_mergeAll hl hm
      have hmerged : ∀ (k : Nat) a b m, as[k]? = some a → bs[k]? = some b → ms[k]? = some m →
          a.merge m = .ok m ∧ m.merge b = .ok m := by
        intro k a b m ha hb hk
        obtain ⟨m', hk', hab⟩ := hall k a b ha hb
        cases hk.symm.trans hk'
        exact ih a (List.mem_of_getElem? ha) hab
      have hleft : mergeAll as ms = .ok ms := by
        refine (mergeAll_eq_ok hlm.symm).mpr ⟨hlm, fun k a m ha hk => ⟨m, hk, ?_⟩⟩
        obtain ⟨b, hb⟩ : ∃ b, bs[k]? = some b := by
          refine ⟨_, List.getElem?_eq_getElem ?_⟩
          rw [← hl]
          exact (List.getElem?_eq_some_iff.mp ha).1
        exact (hmerged k a b m ha hb hk).1
      have hright : mergeAll ms bs = .ok ms := by
        refine (mergeAll_eq_ok (hlm.trans hl)).mpr ⟨rfl, fun k m b hk hb => ⟨m, hk, ?_⟩⟩
        obtain ⟨a, ha⟩ : ∃ a, as[k]? = some a := by
          refine ⟨_, List.getElem?_eq_getElem ?_⟩
          rw [← hlm]
          exact (List.getElem?_eq_some_iff.mp hk).1
        exact (hmerged k a b m ha hb hk).2
      rw [merge_collection_collection_eq_ok, merge_collection_collection_eq_ok]
      exact ⟨⟨hlm.symm, ms, hleft, congrArg (collection · ms) (or_left l l')⟩,
        hlm.trans hl, ms, hright, congrArg (collection · ms) (or_right l l')⟩

end Interface
end TickCircuit
