import TickCircuit.Proofs.Port.Types
/-!
Whatever is done to a port, its tree goes by its interface. Main statement: each sub-port that can
be walked to has the tree and the type that the interface of the whole port implies there
(`tree_mirrors_interface`).
-/
namespace TickCircuit

theorem Interface.arity_of_isExpandable {i : Interface} (h : i.isExpandable) : i.arity = 0 := by
  cases i with
  | any l => rfl
  | rest l e => rfl
  | _ => cases h

namespace Port

inductive Revision where
  | connect (id : LinkId) (spec : PathSpec) (data : Interface)
  | attach (path : Path) (id : LinkId)
  | detach (path : Path) (id : LinkId)
  | retype (target : Interface)
  | speculate
  | retract

def revised (p : Port) : Revision → Port
  | .connect id spec data => (p.connect id spec data).1
  | .attach path id => (p.attach path id).1
  | .detach path id => p.detach path id
  | .retype target => (p.retype target).1
  | .speculate => p.speculate.1
  | .retract => p.retract.1

/-- The ports that can come up: new ones, what is made of them, and their sub-ports. -/
inductive Reachable (d : Direction) : Port → Prop where
  | new (i : Interface) : Reachable d (.new d i)
  | revised {p : Port} (h : Reachable d p) (r : Revision) : Reachable d (p.revised r)
  | sub {p q : Port} (h : Reachable d p) {path : Path} (hq : p.sub? path = some q) : Reachable d q

/-- The tree of a port goes by its interface, as far as its own sub-ports show. -/
structure Mirrors (p : Port) : Prop where
  closed : ∀ l, p.interface = .bit l ∨ p.interface = .none l → p.subs = []
  arity : ∀ l cs, p.interface = .collection l cs → p.subs.length = cs.length
  child : ∀ (k : Nat) q, p.subs[k]? = some q → p.interface.child? k = some q.interface
  direction : ∀ q ∈ p.subs, q.direction = p.direction

theorem retract_cases (p : Port) : p.retract.1 = p ∨
    p.interface.isExpandable ∧ ∃ kept, kept <+: p.subs ∧
      p.retract.1 = { p with subs := kept } := by
  unfold retract
  split
  next he =>
    have hkept : (p.subs.reverse.dropWhile (!isLinked ·)).reverse <+: p.subs.reverse.reverse :=
      List.reverse_prefix.mpr (List.dropWhile_suffix _)
    rw [List.reverse_reverse] at hkept
    exact .inr ⟨he, _, hkept, rfl⟩
  next => exact .inl rfl

namespace Shaped
variable {d : Direction} {p : Port}

theorem attach (h : p.Shaped d) (path : Path) (id : LinkId) : (p.attach path id).1.Shaped d := by
  obtain ⟨hgrown, -⟩ := h.grow path
  unfold Port.attach
  split
  next p' e hg =>
    rw [hg] at hgrown
    exact hgrown
  next p' hg =>
    rw [hg] at hgrown
    exact (hgrown.modifyAt (fun _ => rfl) path).1

theorem connect (h : p.Shaped d) (id : LinkId) (spec : PathSpec) (data : Interface) :
    (p.connect id spec data).1.Shaped d := by
  unfold Port.connect
  split
  · exact h
  · split
    · exact h
    · exact h.attach _ id

theorem retype (h : p.Shaped d) (target : Interface) : (p.retype target).1.Shaped d := by
  unfold Port.retype
  split
  · exact h.retyped target
  · exact h

theorem speculate (h : p.Shaped d) : p.speculate.1.Shaped d := by
  unfold Port.speculate
  dsimp only
  split
  next child _ hchild =>
    split
    · exact h
    · refine h.append fun k q hq => ?_
      obtain ⟨rfl, rfl⟩ : k = 0 ∧ q = new p.direction child := by
        cases k <;> simp_all
      exact ⟨child, hchild, by rw [h.fits.direction]⟩
  · exact h

theorem initial (h : p.Shaped d) (hi : p.interface.arity = 0) {kept : List Port}
    (hk : kept <+: p.subs) : ({ p with subs := kept } : Port).Shaped d := by
  obtain ⟨rest, hsubs⟩ := hk
  have hget : ∀ (k : Nat) q, kept[k]? = some q → p.subs[k]? = some q := by
    intro k q hq
    rw [← hsubs, List.getElem?_append_left (List.getElem?_eq_some_iff.mp hq).1, hq]
  refine shaped_of_getElem? ⟨h.fits.direction, ?_, ?_⟩ ?_
  · intro k q hq
    exact h.fits.child (hget k q hq)
  · rw [hi]
    exact Nat.zero_le _
  · intro k q hq
    exact h.sub (hget k q hq)

theorem retract (h : p.Shaped d) : p.retract.1.Shaped d := by
  obtain he | ⟨he, kept, hkept, hr⟩ := p.retract_cases
  · rw [he]
    exact h
  · rw [hr]
    exact h.initial (Interface.arity_of_isExpandable he) hkept

theorem revised (h : p.Shaped d) (r : Revision) : (p.revised r).Shaped d := by
  cases r with
  | connect id spec data => exact h.connect id spec data
  | attach path id => exact h.attach path id
  | detach path id => exact (h.detach path id).1
  | retype target => exact h.retype target
  | speculate => exact h.speculate
  | retract => exact h.retract

theorem foldl_revised (h : p.Shaped d) (rs : List Revision) :
    (rs.foldl Port.revised p).Shaped d := by
  induction rs generalizing p with
  | nil => exact h
  | cons r rs ih => exact ih (h.revised r)

theorem sub? (h : p.Shaped d) {path : Path} {q : Port} (hq : p.sub? path = some q) :
    q.Shaped d := by
  induction path generalizing p with
  | nil =>
    cases hq
    exact h
  | cons k path ih =>
    obtain ⟨r, hr, hq⟩ := Option.bind_eq_some_iff.mp hq
    exact ih (h.sub hr) hq

theorem mirrors (h : p.Shaped d) : p.Mirrors where
  closed l hi := by
    cases hs : p.subs with
    | nil => rfl
    | cons q subs =>
      have hc := h.fits.child (k := 0) (q := q) (by rw [hs]; rfl)
      obtain hi | hi := hi <;> rw [hi] at hc <;> cases hc
  arity l cs hi := h.fits.length_subs hi
  child k q hq := h.fits.child hq
  direction q hq := by
    obtain ⟨k, hk⟩ := List.mem_iff_getElem?.mp hq
    rw [(h.sub hk).fits.direction, h.fits.direction]

end Shaped

theorem Reachable.shaped {d : Direction} {p : Port} (h : p.Reachable d) : p.Shaped d := by
  induction h with
  | new i => exact shaped_new d i
  | revised _ r ih => exact ih.revised r
  | sub _ hq ih => exact ih.sub? hq

theorem Reachable.foldl_revised {d : Direction} {p : Port} (h : p.Reachable d)
    (rs : List Revision) : (rs.foldl Port.revised p).Reachable d := by
  induction rs generalizing p with
  | nil => exact h
  | cons r rs ih => exact ih (h.revised r)

/-- Every sub-port has the tree and the type that the interface of the whole port implies. -/
theorem tree_mirrors_interface (d : Direction) (i : Interface) (rs : List Revision) {path : Path}
    {q : Port} (hq : (rs.foldl revised (new d i)).sub? path = some q) :
    q.Mirrors ∧ q.direction = d ∧
      (rs.foldl revised (new d i)).interface.childAt? path = some q.interface := by
  have h := (shaped_new d i).foldl_revised rs
  exact ⟨(h.sub? hq).mirrors, (h.sub? hq).fits.direction, h.childAt hq⟩

/-- A table of pairs in whose second row a third entry was asked for, in vain. -/
theorem tree_mirrors_interface_table :
    let pair (x y : String) : Interface :=
      .collection (some "pair") [.bit (some x), .bit (some y)]
    let rs : List Revision := [.attach [1, 2] 7, .speculate,
      .connect 8 [.index 1, .index 1] (.bit none), .retype (.rest (some "table") (pair "p" "q")),
      .retract]
    let p := rs.foldl revised (new .input (.rest none (pair "x" "y")))
    p.subs.length = 2 ∧ p.linksAt [1, 1] = [8] ∧ ∃ q, p.sub? [1, 1] = some q ∧ q.Mirrors ∧
      q.interface = .bit (some "q") ∧ p.interface.childAt? [1, 1] = some q.interface := by
  intro pair rs p
  have hi : (p.sub? [1, 1]).map (·.interface) = some (.bit (some "q")) := by decide +kernel
  obtain ⟨q, hq, hi⟩ := Option.map_eq_some_iff.mp hi
  obtain ⟨hmirrors, -, hchild⟩ := tree_mirrors_interface .input (.rest none (pair "x" "y")) rs hq
  exact ⟨by decide +kernel, by decide +kernel, q, hq, hmirrors, hi, hchild⟩

end Port
end TickCircuit
