import TickCircuit.Proofs.Circuit.Ports
/-!
Making and taking away one link. Main statement: a link is made at both of its ends or not at all
(`connect_cases`); the sink is bound first, and its source cannot fail after that.
-/
namespace TickCircuit
namespace Circuit
variable {c : Circuit Gate}

def Shaped (c : Circuit Gate) : Prop := ∀ ⦃d n p⦄, c.port? d n = some p → p.Shaped d

def reserved (c : Circuit Gate) : Circuit Gate := { c with links := c.links.reserve }

def withLink (c : Circuit Gate) (l : Link) : Circuit Gate :=
  let id := c.links.nextId
  let c := c.reserved.mapPort (fun p => (p.attach l.sink.path id).1) .input l.sink.node
  let c := c.mapPort (fun p => (p.attach l.source.path id).1) .output l.source.node
  { c with links := c.links.put id l }

theorem port?_withLinks (d : Direction) (n : Node) (t : LinkTable) :
    ({ c with links := t } : Circuit Gate).port? d n = c.port? d n := by
  cases d <;> cases n <;> rfl

theorem bindSink_cases (hc : c.Shaped) (id : LinkId) (data : Interface) (end_ : LinkEnd) :
    (∃ e, c.bindSink id data end_ = (c, .error e)) ∨
      ∃ p leaf, c.port? .input end_.node = some p ∧ p.resolve end_.path = .ok leaf ∧
        Port.checkLeaf .input leaf data = .ok () ∧
        c.bindSink id data end_ =
          (c.mapPort (fun p => (p.attach leaf.path id).1) .input end_.node, .ok leaf.path) := by
  unfold bindSink
  cases hp : c.sink end_.node with
  | error e => exact .inl ⟨e, rfl⟩
  | ok p =>
    have hport := sink_eq_ok.mp hp
    obtain ⟨e, he⟩ | ⟨leaf, hr, hl, hk⟩ := Port.connect_cases (hc hport) id end_.path data
    · refine .inl ⟨e, ?_⟩
      simp only [he, Prod.mk.injEq, and_true]
      refine mapPort_eq_self (d := .input) fun q hq => ?_
      rw [hport] at hq
      exact Option.some.inj hq
    · refine .inr ⟨p, leaf, hport, hr, hl, ?_⟩
      simp only [hk, Prod.mk.injEq, and_true]
      refine mapPort_congr (d := .input) fun q hq => ?_
      rw [hport] at hq
      cases hq
      rfl

theorem bindSource_resolved (hc : c.Shaped) {n : Node} {p : Port} (hp : c.port? .output n = some p)
    {spec : PathSpec} {leaf : Leaf} (hr : p.resolve spec = .ok leaf) (id : LinkId) :
    c.bindSource id n leaf.path =
      (c.mapPort (fun p => (p.attach leaf.path id).1) .output n, .ok ()) := by
  obtain ⟨hok, -⟩ := Port.attach_resolved (hc hp) hr id
  simp only [bindSource, source_eq_ok.mpr hp, hok, Prod.mk.injEq, and_true]
  refine mapPort_congr (d := .output) fun q hq => ?_
  rw [hp] at hq
  cases hq
  rfl

theorem Shaped.withLinks {t : LinkTable} (hc : c.Shaped) : Shaped { c with links := t } :=
  fun d n _ h => hc (d := d) (n := n) (by rwa [port?_withLinks] at h)

theorem shaped_mapPort (hc : c.Shaped) {f : Port → Port} {d : Direction} {n : Node}
    (hf : ∀ p, c.port? d n = some p → (f p).Shaped d) : (c.mapPort f d n).Shaped := by
  intro e m p hp
  rw [port?_mapPort] at hp
  split at hp
  next h =>
    obtain ⟨rfl, rfl⟩ := h
    obtain ⟨q, hq, rfl⟩ := Option.map_eq_some_iff.mp hp
    exact hf q hq
  next => exact hc hp

theorem shaped_attach (hc : c.Shaped) {d : Direction} {n : Node} {p : Port}
    (hp : c.port? d n = some p) {spec : PathSpec} {leaf : Leaf} (hr : p.resolve spec = .ok leaf)
    (id : LinkId) : (c.mapPort (fun p => (p.attach leaf.path id).1) d n).Shaped := by
  refine shaped_mapPort hc fun q hq => ?_
  rw [hp] at hq
  cases hq
  exact (Port.attach_resolved (hc hp) hr id).2.1

theorem bindSource_of_bound (hc : c.Shaped) {n m : Node} {p q : Port} {spec spec' : PathSpec}
    {leaf goal : Leaf} (hp : c.port? .output n = some p) (hr : p.resolve spec = .ok leaf)
    (hq : c.port? .input m = some q) (hg : q.resolve spec' = .ok goal) (id : LinkId) :
    let bound := c.mapPort (fun p => (p.attach goal.path id).1) .input m
    bound.bindSource id n leaf.path =
      (bound.mapPort (fun p => (p.attach leaf.path id).1) .output n, .ok ()) := by
  have hp' : (c.mapPort (fun p => (p.attach goal.path id).1) .input m).port? .output n =
      some p := by
    rw [port?_mapPort, if_neg (by simp), hp]
  exact bindSource_resolved (shaped_attach hc hq hg id) hp' hr id

theorem checkLiteral_eq_ok {data : Interface} {literal : Option Value} :
    checkLiteral data literal = .ok () ↔ ∀ v, literal = some v → data.accepts v := by
  cases literal with
  | none => simp [checkLiteral]
  | some v =>
    have h := Interface.check_eq_ok_iff (i := data) (v := v)
    simp only [checkLiteral, Option.elim_some, Option.some.injEq, forall_eq']
    rw [← h]
    cases data.check v with
    | error e => exact ⟨nofun, nofun⟩
    | ok u => exact ⟨fun _ => rfl, fun _ => rfl⟩

/-- The link that `connect` makes from `start` to `end_`, with what has been checked of it. -/
structure Joins (c : Circuit Gate) (start end_ : LinkEnd) (literal : Option Value)
    (l : Link) : Prop where
  source : ∃ p leaf, c.port? .output start.node = some p ∧ p.resolve start.path = .ok leaf ∧
    l.source = ⟨start.node, leaf.path⟩ ∧ l.data = leaf.interface
  sink : ∃ p leaf, c.port? .input end_.node = some p ∧ p.resolve end_.path = .ok leaf ∧
    l.sink = ⟨end_.node, leaf.path⟩ ∧ Port.checkLeaf .input leaf l.data = .ok ()
  accepts : ∀ v, literal = some v → l.data.accepts v
  current : l.current = literal
  last : l.last = literal

/-- A link is made as a whole; if it is refused, at most its id is used up. -/
theorem connect_cases (hc : c.Shaped) (start end_ : LinkEnd) (literal : Option Value) :
    (∃ e, c.connect start end_ literal = (c, .error e)) ∨
      (∃ e, c.connect start end_ literal = (c.reserved, .error e)) ∨
      ∃ l, Joins c start end_ literal l ∧
        c.connect start end_ literal = (c.withLink l, .ok c.links.nextId) := by
  unfold connect
  cases hs : c.source start.node with
  | error e => exact .inl ⟨e, rfl⟩
  | ok p =>
    have hp := source_eq_ok.mp hs
    cases hr : p.resolve start.path with
    | error e => exact .inl ⟨e, by simp [bind, Except.bind, hr]⟩
    | ok leaf =>
      simp only [bind, Except.bind, hr]
      cases hv : checkLiteral leaf.interface literal with
      | error e => exact .inl ⟨e, rfl⟩
      | ok u =>
        cases u
        dsimp only
        refine .inr ?_
        have hr' : c.reserved.Shaped := hc.withLinks
        obtain ⟨e, he⟩ | ⟨q, goal, hq, hg, hl, hk⟩ :=
          bindSink_cases hr' c.links.nextId leaf.interface end_
        · refine .inl ⟨e, ?_⟩
          rw [reserved] at he
          rw [he]
          rfl
        · have hj : Joins c start end_ literal
              (.seeded ⟨start.node, leaf.path⟩ ⟨end_.node, goal.path⟩ leaf.interface literal) := {
            source := ⟨p, leaf, hp, hr, rfl, rfl⟩
            sink := ⟨q, goal, by rwa [reserved, port?_withLinks] at hq, hg, rfl, hl⟩
            accepts := checkLiteral_eq_ok.mp hv
            current := rfl
            last := rfl }
          refine .inr ⟨_, hj, ?_⟩
          have hp' : c.reserved.port? .output start.node = some p := by
            rw [reserved, port?_withLinks, hp]
          have hb := bindSource_of_bound hr' hp' hr hq hg c.links.nextId
          rw [reserved] at hk
          rw [hk]
          dsimp only
          rw [reserved] at hb
          rw [hb]
          rfl

end Circuit
end TickCircuit
