import TickCircuit.Proofs.Port.Shape
/-!
Paths that a port resolves. Main statements: whatever `resolve` accepts can be grown and ends in a
port of the type that was announced (`grow_follow`), so that binding after a check never fails
(`attach_resolved`).
-/
namespace TickCircuit

/-- A path that has the indices asked for, with any index where `*` was. -/
def PathSpec.Names : PathSpec → Path → Prop
  | [], [] => True
  | .index n :: steps, i :: path => i = n ∧ PathSpec.Names steps path
  | .next :: steps, _ :: path => PathSpec.Names steps path
  | _, _ => False

theorem PathSpec.names_cons {step : Step} {steps : PathSpec} {i : Nat} {path : Path} :
    PathSpec.Names (step :: steps) (i :: path) ↔
      (∀ n, step = .index n → i = n) ∧ PathSpec.Names steps path := by
  cases step <;> simp [PathSpec.Names]

theorem Interface.child?_of_isExpandable {i : Interface} (h : i.isExpandable) :
    i.arity = 0 ∧ ∃ c, ∀ k, i.child? k = some c := by
  cases i with
  | any l => exact ⟨rfl, .any Option.none, fun _ => rfl⟩
  | rest l e => exact ⟨rfl, e, fun _ => rfl⟩
  | _ => cases h

namespace Port

/-- What one step of a path asks of an interface that has `count` sub-ports so far. -/
def Opens (interface : Interface) (count : Nat) (step : Step) (index : Nat) : Prop :=
  (∀ n, step = .index n → index = n) ∧ (step = .next → interface.isExpandable ∧ index = count)
    ∧ (interface.isExpandable → index < maxSubPorts)

theorem of_follow_cons {whole : PathSpec} {port : Option Port} {interface : Interface}
    {step : Step} {steps : PathSpec} {leaf : Leaf}
    (h : follow whole port interface (step :: steps) = .ok leaf) :
    ∃ index child rest, Opens interface (port.elim [] subs).length step index ∧
      interface.child? index = some child ∧
      follow whole (port.bind (·.subs[index]?))
        ((port.bind (·.subs[index]?)).elim child (·.interface)) steps = .ok rest ∧
      leaf = { rest with path := index :: rest.path } := by
  unfold follow at h
  dsimp only at h
  generalize hindex : step.indexAt (port.elim [] subs).length = index at h
  by_cases hnext : step = .next ∧ (!interface.isExpandable) = true
  · rw [if_pos hnext] at h
    cases h
  rw [if_neg hnext] at h
  by_cases hlimit : interface.isExpandable = true ∧ maxSubPorts ≤ index
  · rw [if_pos hlimit] at h
    cases h
  rw [if_neg hlimit] at h
  cases hchild : interface.child? index with
  | none =>
    rw [hchild] at h
    cases h
  | some child =>
    rw [hchild] at h
    dsimp only at h
    cases hf : follow whole (port.bind (·.subs[index]?))
        ((port.bind (·.subs[index]?)).elim child (·.interface)) steps with
    | error e =>
      rw [hf] at h
      cases h
    | ok rest =>
      rw [hf] at h
      cases h
      refine ⟨index, child, rest, ⟨?_, ?_, ?_⟩, hchild, hf, rfl⟩
      · intro n heq
        subst heq
        exact hindex.symm
      · intro heq
        subst heq
        exact ⟨by simpa using hnext, hindex.symm⟩
      · intro he
        exact Nat.lt_of_not_le fun hle => hlimit ⟨he, hle⟩

theorem follow_spec {whole whole' steps : PathSpec} {port : Option Port} {interface : Interface}
    {leaf : Leaf} (h : follow whole port interface steps = .ok leaf) :
    follow whole' port interface (Path.spec leaf.path) = .ok leaf := by
  induction steps generalizing port interface leaf with
  | nil =>
    cases h
    rfl
  | cons step steps ih =>
    obtain ⟨index, child, rest, hopen, hchild, hrest, rfl⟩ := of_follow_cons h
    have hlimit : ¬(interface.isExpandable = true ∧ maxSubPorts ≤ index) :=
      fun hl => Nat.not_lt_of_le hl.2 (hopen.2.2 hl.1)
    have hbelow := ih hrest
    rw [Path.spec] at hbelow
    simp [Path.spec, follow, Step.indexAt, hlimit, hchild, hbelow, Functor.map, Except.map]

theorem resolve_spec {p : Port} {spec : PathSpec} {leaf : Leaf} (h : p.resolve spec = .ok leaf) :
    p.resolve (Path.spec leaf.path) = .ok leaf := follow_spec h

theorem follow_none (whole : PathSpec) (d : Direction) (i : Interface) (steps : PathSpec) :
    follow whole none i steps = follow whole (some (new d i)) i steps := by
  induction steps generalizing i with
  | nil =>
    have hn : (new d i).isLinked = false := isLinked_eq_false.mpr (linksAt_new d i)
    simp [follow, hn]
  | cons step steps ih =>
    have hsub : ∀ k child, i.child? k = some child → follow whole none child steps =
        follow whole (new d i).subs[k]? (((new d i).subs[k]?).elim child (·.interface)) steps := by
      intro k child hc
      rw [getElem?_subs_new]
      by_cases hk : k < i.arity
      · simp [hk, hc, interface_new, ih]
      · simp [hk]
    have hindex : ¬(step = .next ∧ (!i.isExpandable) = true) →
        step.indexAt (new d i).subs.length = step.indexAt 0 := by
      intro h
      cases step with
      | index n => rfl
      | next =>
        have he : i.isExpandable = true := by simpa using h
        rw [length_subs_new, (Interface.child?_of_isExpandable he).1]
    unfold follow
    dsimp only [Option.elim_none, Option.elim_some, List.length_nil]
    by_cases hnext : step = .next ∧ (!i.isExpandable) = true
    · rw [if_pos hnext, if_pos hnext]
    · rw [if_neg hnext, if_neg hnext, hindex hnext]
      cases hc : i.child? (step.indexAt 0) with
      | none => rfl
      | some child =>
        dsimp only [Option.bind_none, Option.bind_some, Option.elim_none]
        rw [hsub _ child hc]

theorem fresh_of_child? {d : Direction} {i c : Interface} (h : ∀ k, i.child? k = some c)
    (start count : Nat) : (fresh d i start count).2 = none := by
  induction count generalizing start with
  | zero => rfl
  | succ count ih => simp [fresh, h, ih]

theorem Shaped.isExpandable_of_missing {d : Direction} {p : Port} (hp : p.Shaped d) {k : Nat}
    {c : Interface} (hc : p.interface.child? k = some c) (hs : p.subs[k]? = none) :
    p.interface.isExpandable = true := by
  have ha := hp.fits.arity
  have hk := List.getElem?_eq_none_iff.mp hs
  cases hi : p.interface with
  | collection l cs =>
    rw [hi] at ha hc
    have hlt := (List.getElem?_eq_some_iff.mp hc).1
    simp only [Interface.arity] at ha
    omega
  | any l => rfl
  | rest l e => rfl
  | bit l => simp [hi, Interface.child?] at hc
  | none l => simp [hi, Interface.child?] at hc

theorem Shaped.grown {d : Direction} {p : Port} (hp : p.Shaped d) {i : Nat} {c : Interface}
    (hc : p.interface.child? i = some c) :
    (fresh p.direction p.interface p.subs.length (i + 1 - p.subs.length)).2 = none ∧
      (p.subs ++ (fresh p.direction p.interface p.subs.length
        (i + 1 - p.subs.length)).1)[i]? = some ((p.subs[i]?).getD (new d c)) := by
  cases hs : p.subs[i]? with
  | some s =>
    have hlt := (List.getElem?_eq_some_iff.mp hs).1
    rw [Nat.sub_eq_zero_of_le hlt]
    exact ⟨rfl, by simp [fresh, hs]⟩
  | none =>
    have hle := List.getElem?_eq_none_iff.mp hs
    obtain ⟨-, c', hc'⟩ := Interface.child?_of_isExpandable (hp.isExpandable_of_missing hc hs)
    have hmissing := fresh_of_child? (d := p.direction) hc' p.subs.length (i + 1 - p.subs.length)
    refine ⟨hmissing, ?_⟩
    have hlen := length_fresh hmissing
    rw [List.getElem?_append_right hle]
    have hlt : i - p.subs.length < (fresh p.direction p.interface p.subs.length
        (i + 1 - p.subs.length)).1.length := by omega
    obtain ⟨c'', hc'', hq⟩ := getElem?_fresh (List.getElem?_eq_getElem hlt)
    rw [Nat.add_sub_cancel' hle, hc] at hc''
    cases hc''
    rw [List.getElem?_eq_getElem hlt, hq, hp.fits.direction]
    rfl

theorem Shaped.grow_cons {d : Direction} {p : Port} (hp : p.Shaped d) {i : Nat} {c : Interface}
    (hc : p.interface.child? i = some c) (path : Path) :
    let sub := (p.subs[i]?).getD (new d c)
    ∃ more, more.length = i + 1 - p.subs.length ∧ (∀ q ∈ more, ∃ c, q = new d c) ∧
      (p.subs ++ more)[i]? = some sub ∧
      Port.grow (i :: path) p =
        ({ p with subs := (p.subs ++ more).set i (Port.grow path sub).1 },
          (Port.grow path sub).2) := by
  intro sub
  obtain ⟨hmissing, hget⟩ := hp.grown hc
  refine ⟨_, length_fresh hmissing, fun q hq => ?_, hget, ?_⟩
  · obtain ⟨k, hk⟩ := List.getElem?_of_mem hq
    obtain ⟨c, -, rfl⟩ := getElem?_fresh hk
    exact ⟨c, by rw [hp.fits.direction]⟩
  · simp [Port.grow, hmissing, hget, sub]

theorem Shaped.of_follow_cons {whole : PathSpec} {step : Step} {steps : PathSpec} {d : Direction}
    {p : Port} {leaf : Leaf} (hp : p.Shaped d)
    (h : follow whole (some p) p.interface (step :: steps) = .ok leaf) :
    ∃ i c rest, Opens p.interface p.subs.length step i ∧ p.interface.child? i = some c ∧
      leaf = { rest with path := i :: rest.path } ∧
      ((p.subs[i]?).getD (new d c)).Shaped d ∧
      follow whole (some ((p.subs[i]?).getD (new d c)))
        ((p.subs[i]?).getD (new d c)).interface steps = .ok rest := by
  obtain ⟨i, c, rest, hopen, hchild, hrest, rfl⟩ := Port.of_follow_cons h
  refine ⟨i, c, rest, hopen, hchild, rfl, ?_⟩
  cases hs : p.subs[i]? with
  | some s =>
    simp only [hs, Option.bind_some, Option.elim_some] at hrest
    exact ⟨hp.sub hs, hrest⟩
  | none =>
    simp only [hs, Option.bind_some, Option.elim_none] at hrest
    rw [follow_none whole d] at hrest
    rw [Option.getD_none, interface_new]
    exact ⟨shaped_new d c, hrest⟩

theorem grow_follow {whole steps : PathSpec} {d : Direction} {p : Port} {leaf : Leaf}
    (hp : p.Shaped d) (h : follow whole (some p) p.interface steps = .ok leaf) :
    steps.Names leaf.path ∧ (grow leaf.path p).2 = none ∧
      ∃ q, (grow leaf.path p).1.sub? leaf.path = some q ∧ q.interface = leaf.interface := by
  induction steps generalizing p leaf with
  | nil =>
    cases h
    exact ⟨trivial, rfl, p, rfl, rfl⟩
  | cons step steps ih =>
    obtain ⟨i, c, rest, hopen, hchild, rfl, hsub, hfollow⟩ := hp.of_follow_cons h
    obtain ⟨more, -, -, hget, hgrow⟩ := hp.grow_cons hchild rest.path
    obtain ⟨hnames, hmade, q, hq, hi⟩ := ih hsub hfollow
    have hlt := (List.getElem?_eq_some_iff.mp hget).1
    rw [hgrow]
    refine ⟨PathSpec.names_cons.mpr ⟨hopen.1, hnames⟩, hmade, q, ?_, hi⟩
    simpa [Port.sub?, List.getElem?_set_self hlt] using hq

theorem attach_resolved {d : Direction} {p : Port} {spec : PathSpec} {leaf : Leaf}
    (hp : p.Shaped d) (h : p.resolve spec = .ok leaf) (id : LinkId) :
    (p.attach leaf.path id).2 = .ok () ∧
      (p.attach leaf.path id).1.Shaped d ∧
      (p.attach leaf.path id).1.interface = p.interface ∧
      ∃ q, (p.attach leaf.path id).1.sub? leaf.path = some q ∧ q.interface = leaf.interface := by
  obtain ⟨-, hgrow, q, hq, hi⟩ := grow_follow hp h
  have hs := hp.grow leaf.path
  have hm := hs.1.modifyAt (f := fun q => { q with links := q.links ++ [id] }) (fun _ => rfl)
    leaf.path
  rw [attach_eq hgrow]
  exact ⟨rfl, hm.1, hm.2.trans hs.2, { q with links := q.links ++ [id] },
    by rw [sub?_modifyAt, hq]; rfl, hi⟩

/-- A port takes a link where every check has passed, and else stays as it was. -/
theorem connect_cases {d : Direction} {p : Port} (hp : p.Shaped d) (id : LinkId) (spec : PathSpec)
    (data : Interface) :
    (∃ e, p.connect id spec data = (p, .error e)) ∨
      ∃ leaf, p.resolve spec = .ok leaf ∧ checkLeaf d leaf data = .ok () ∧
        p.connect id spec data = ((p.attach leaf.path id).1, .ok leaf.path) := by
  unfold connect
  cases hr : p.resolve spec with
  | error e => exact .inl ⟨e, rfl⟩
  | ok leaf =>
    dsimp only
    rw [hp.fits.direction]
    cases hl : checkLeaf d leaf data with
    | error e => exact .inl ⟨e, rfl⟩
    | ok u =>
      obtain ⟨hok, -⟩ := attach_resolved hp hr id
      refine .inr ⟨leaf, rfl, hl, ?_⟩
      simp only [hok]
      rfl

end Port
end TickCircuit
