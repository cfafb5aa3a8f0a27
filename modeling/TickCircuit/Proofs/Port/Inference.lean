import TickCircuit.Proofs.Port.Types
/-!
Ports that have the type inferred for them. Main statements: where no link decides, a sub-port has
the types of its own sub-ports, or none (`interface_of_undecided`); and a port is inferred to have
its type again just when the links that decide, at places that are still open, bring what they
brought (`inferred_retyped_iff`).
-/
namespace TickCircuit
namespace Port

theorem Shaped.checkRetype_self {d : Direction} {p : Port} (h : p.Shaped d) :
    checkRetype p.interface p = .ok () := by
  induction p with
  | mk d' i ls subs ih =>
    refine checkRetype_eq_ok.mpr fun k q hq => ?_
    have hchild : Interface.child? k i = some q.interface := h.fits.child hq
    rw [hchild]
    exact ih q (List.mem_of_getElem? hq) (h.sub hq)

theorem Shaped.retyped_self {d : Direction} {p : Port} (h : p.Shaped d) :
    p.retyped p.interface = p := by
  induction p with
  | mk d' i ls subs ih =>
    have hsubs : (Port.retyped i ⟨d', i, ls, subs⟩).subs = subs := by
      refine List.ext_getElem? fun k => ?_
      rw [getElem?_subs_retyped]
      cases hq : subs[k]? with
      | none =>
        have hk : ¬ k < i.arity := fun hk =>
          Nat.not_lt_of_le (List.getElem?_eq_none_iff.mp hq) (Nat.lt_of_lt_of_le hk h.fits.arity)
        cases i.child? k <;> simp [hk]
      | some q =>
        have hchild : Interface.child? k i = some q.interface := h.fits.child hq
        rw [hchild]
        exact congrArg some (ih q (List.mem_of_getElem? hq) (h.sub hq))
    have hrest : Port.retyped i ⟨d', i, ls, subs⟩ =
        ⟨d', i, ls, (Port.retyped i ⟨d', i, ls, subs⟩).subs⟩ := by
      cases i <;> rfl
    rw [hrest, hsubs]

theorem decider?_retyped {p : Port} {i : Interface} (h : checkRetype i p = .ok ()) (path : Path) :
    (p.retyped i).decider? path = p.decider? path := by
  rw [decider?, funext (linksAt_retyped h), decider?]

theorem subs_retyped_collection {p : Port} {l : Option String} {is : List Interface}
    (h : is.length = p.subs.length) : (p.retyped (.collection l is)).subs =
      List.zipWith retyped is p.subs := by
  refine List.ext_getElem? fun k => ?_
  rw [getElem?_subs_retyped, List.getElem?_zipWith, Interface.child?]
  by_cases hk : k < is.length
  · rw [List.getElem?_eq_getElem hk, List.getElem?_eq_getElem (h ▸ hk)]
    rfl
  · rw [List.getElem?_eq_none (Nat.le_of_not_lt hk)]
    rfl

/-- Where no link decides, an `any` port had each sub-port that it has after it was given its type,
and that has the type inferred for it. -/
theorem Shaped.inferred_undecided {f : LinkId → Except Fault Interface} {d : Direction} {p : Port}
    (hp : p.Shaped d) (hany : p.interface.isAny) {i : Interface} (h : p.inferred f = .ok i)
    {path : Path} (hd : p.decider? path = none) {q : Port}
    (hq : (p.retyped i).sub? path = some q) :
    ∃ (r : Port) (j : Interface), r.interface.isAny ∧ r.links = [] ∧ r.inferred f = .ok j ∧
      q = r.retyped j := by
  induction path generalizing p i with
  | nil =>
    cases hq
    cases hl : p.links with
    | nil => exact ⟨p, i, hany, hl, h, rfl⟩
    | cons id ids =>
      rw [decider?_of_link hl] at hd
      cases hd
  | cons k path ih =>
    obtain ⟨s, hs, hq⟩ := Option.bind_eq_some_iff.mp hq
    obtain ⟨hfinal, -⟩ | ⟨id, ids, hl, -⟩ | ⟨-, -, rfl⟩ | ⟨hl, -, is, rfl, hlength, hall⟩ :=
      inferred_cases h
    · exact absurd hfinal (Interface.not_isFinal_of_isAny hany)
    · rw [decider?_of_link hl] at hd
      cases hd
    · rw [getElem?_subs_retyped] at hs
      cases hs
    · rw [subs_retyped_collection hlength] at hs
      obtain ⟨j, r, hj, hr, rfl⟩ := List.getElem?_zipWith_eq_some.mp hs
      obtain ⟨j', hj', hinferred⟩ := hall k r hr
      cases hj.symm.trans hj'
      rw [decider?_cons_of_unlinked hl, hr] at hd
      obtain ⟨c, hc, hcany⟩ := Interface.childAt?_isAny hany [k]
      rw [Interface.childAt?, hp.fits.child hr] at hc
      cases hc
      exact ih (hp.sub hr) hcany hinferred hd hq

/-- Where no link decides, a sub-port of an `any` port is given the types of its own sub-ports, and
none if it has none. -/
theorem Shaped.interface_of_undecided {f : LinkId → Except Fault Interface} {d : Direction}
    {p : Port} (hp : p.Shaped d) (hany : p.interface.isAny) {i : Interface}
    (h : p.inferred f = .ok i) {path : Path} (hd : p.decider? path = none) {q : Port}
    (hq : (p.retyped i).sub? path = some q) :
    (q.subs = [] → q.interface = .none none) ∧
      (q.subs ≠ [] → q.interface = .collection none (q.subs.map (·.interface))) := by
  obtain ⟨r, j, hr, hl, hinferred, rfl⟩ := hp.inferred_undecided hany h hd hq
  rw [interface_retyped]
  obtain ⟨hfinal, -⟩ | ⟨id, ids, hlinks, -⟩ | ⟨-, -, rfl⟩ | ⟨-, hs, is, rfl, hlength, -⟩ :=
    inferred_cases hinferred
  · exact absurd hfinal (Interface.not_isFinal_of_isAny hr)
  · cases hl.symm.trans hlinks
  · have hbare : (r.retyped (.none none)).subs = [] := by cases r; rfl
    exact ⟨fun _ => rfl, fun hne => absurd hbare hne⟩
  · have hsubs := subs_retyped_collection (p := r) (l := none) hlength
    have htypes : (List.zipWith Port.retyped is r.subs).map (·.interface) = is := by
      refine List.ext_getElem? fun k => ?_
      rw [List.getElem?_map, List.getElem?_zipWith]
      cases hk : is[k]? with
      | none => rfl
      | some c =>
        have hlt : k < r.subs.length := hlength ▸ (List.getElem?_eq_some_iff.mp hk).1
        rw [List.getElem?_eq_getElem hlt]
        exact congrArg some (interface_retyped c _)
    rw [hsubs, htypes]
    refine ⟨fun hnil => ?_, fun _ => rfl⟩
    rw [hnil] at htypes
    cases htypes
    exact absurd (List.length_eq_zero_iff.mp hlength.symm) hs

/-- A port that was given the type inferred for it is inferred to have it again just when each link
that decides, at a place that is still open, brings the same again. -/
theorem inferred_retyped_iff {f g : LinkId → Except Fault Interface} {p : Port} {i : Interface}
    (h : p.inferred f = .ok i) : (p.retyped i).inferred g = .ok i ↔
      ∀ path id t, p.decider? path = some (id, []) → i.childAt? path = some t → ¬ t.isFinal →
        g id = f id := by
  induction p generalizing i with
  | mk d i₀ ls subs ih =>
    by_cases hi : i.isFinal
    · refine iff_of_true ?_ fun path id t _ ht hopen => ?_
      · rw [inferred_of_isFinal (by rwa [interface_retyped]), interface_retyped]
      · obtain ⟨-, rfl⟩ := Interface.childAt?_of_isFinal hi ht
        exact absurd hi hopen
    · have hopen : ¬ (Port.retyped i ⟨d, i₀, ls, subs⟩).interface.isFinal := by
        rwa [interface_retyped]
      have hlinks := links_retyped i ⟨d, i₀, ls, subs⟩
      obtain ⟨hfinal, rfl⟩ | ⟨id, ids, hl, hf⟩ | ⟨-, -, rfl⟩ | ⟨hl, hs, is, rfl, hlength, hall⟩ :=
        inferred_cases h
      · exact absurd hfinal hi
      · rw [inferred_of_link hopen (hlinks.trans hl), ← hf]
        constructor
        · intro hg path id' t hd _ _
          rw [decider?_of_link hl] at hd
          cases hd
          exact hg
        · intro hg
          exact hg [] id i (decider?_of_link hl []) rfl hi
      · exact absurd rfl hi
      · have hsubs := subs_retyped_collection (p := ⟨d, i₀, ls, subs⟩) (l := none) hlength
        have hne : (Port.retyped (.collection none is) ⟨d, i₀, ls, subs⟩).subs ≠ [] := by
          intro hnil
          have hz := congrArg List.length (hsubs.symm.trans hnil)
          rw [List.length_zipWith, hlength, Nat.min_self] at hz
          exact hs (List.length_eq_zero_iff.mp hz)
        rw [inferred_of_subs hopen (hlinks.trans hl) hne, hsubs, collection_inferred_eq_ok]
        constructor
        · rintro ⟨is', he, -, hagain⟩ path id t hd ht hopen
          cases he
          cases path with
          | nil =>
            rw [decider?_nil_of_unlinked hl] at hd
            cases hd
          | cons k path =>
            rw [decider?_cons_of_unlinked hl] at hd
            obtain ⟨q, hq, hd⟩ := Option.bind_eq_some_iff.mp hd
            obtain ⟨j, hj, hinferred⟩ := hall k q hq
            obtain ⟨j', hj', hg⟩ := hagain k (q.retyped j) (by simp [List.getElem?_zipWith, hq, hj])
            cases hj.symm.trans hj'
            rw [Interface.childAt?, Interface.child?, hj] at ht
            exact (ih q (List.mem_of_getElem? hq) hinferred).mp hg path id t hd ht hopen
        · intro hsame
          refine ⟨is, rfl, ?_, fun k q' hq' => ?_⟩
          · rw [List.length_zipWith, hlength, Nat.min_self]
          · obtain ⟨j, q, hj, hq, rfl⟩ := List.getElem?_zipWith_eq_some.mp hq'
            obtain ⟨j', hj', hinferred⟩ := hall k q hq
            cases hj.symm.trans hj'
            refine ⟨j, hj, (ih q (List.mem_of_getElem? hq) hinferred).mpr ?_⟩
            intro path id t hd ht hopen
            refine hsame (k :: path) id t ?_ ?_ hopen
            · rw [decider?_cons_of_unlinked hl]
              exact Option.bind_eq_some_iff.mpr ⟨q, hq, hd⟩
            · rw [Interface.childAt?, Interface.child?, hj]
              exact ht

end Port
end TickCircuit
