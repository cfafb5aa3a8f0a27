import TickCircuit.Proofs.Gate.Consistent
/-!
Making a link is all or nothing: what is refused leaves no trace but a used id, and what is made
comes last everywhere (`connect_all_or_nothing`).
-/
namespace TickCircuit
namespace Circuit
variable {c : Circuit Gate}

/-- What a new link leaves behind. All other links are where they were. -/
structure LinkMade (c : Circuit Gate) (start end_ : LinkEnd) (literal : Option Value)
    (c' : Circuit Gate) (id : LinkId) (l : Link) : Prop where
  fresh : id = c.links.nextId ∧ id ∉ c.links.ids
  entries : c'.links.entries = c.links.entries ++ [(id, l)]
  gateIds : c'.gateIds = c.gateIds
  source_named : l.source.node = start.node ∧ start.path.Names l.source.path
  sink_named : l.sink.node = end_.node ∧ end_.path.Names l.sink.path
  source_leaf : ∃ p q, c'.source l.source.node = .ok p ∧ p.sub? l.source.path = some q ∧
    q.interface = l.data
  sink_leaf : ∃ p q, c'.sink l.sink.node = .ok p ∧ p.sub? l.sink.path = some q ∧
    q.interface.admits l.data
  seeded : l.current = literal ∧ l.last = literal
  conforms : ∀ v, literal = some v → l.data.accepts v
  places : ∀ {d n p}, c.port? d n = some p → ∃ p', c'.port? d n = some p' ∧
    ∀ path, p'.linksAt path = p.linksAt path ++ if l.endAt d = ⟨n, path⟩ then [id] else []

theorem Wired.leaf_withLink (h : c.Wired) {l : Link} {d : Direction} {e : LinkEnd} {p : Port}
    {leaf : Leaf} (hp : c.port? d e.node = some p) (hr : p.resolve e.path = .ok leaf)
    (hl : l.endAt d = ⟨e.node, leaf.path⟩) :
    ((l.endAt d).node = e.node ∧ e.path.Names (l.endAt d).path) ∧
      ∃ p' q, (c.withLink l).port? d (l.endAt d).node = some p' ∧
        p'.sub? (l.endAt d).path = some q ∧ q.interface = leaf.interface := by
  obtain ⟨hnames, -, -⟩ := Port.grow_follow (h.shaped hp) hr
  obtain ⟨-, -, -, q, hq, hi⟩ := Port.attach_resolved (h.shaped hp) hr c.links.nextId
  rw [hl]
  refine ⟨⟨rfl, hnames⟩, (p.attach leaf.path c.links.nextId).1, q, ?_, hq, hi⟩
  rw [port?_withLink, hp, hl]
  simp

theorem Wired.linkMade (h : c.Wired) {start end_ : LinkEnd} {literal : Option Value} {l : Link}
    (hj : Joins c start end_ literal l) :
    LinkMade c start end_ literal (c.withLink l) c.links.nextId l := by
  obtain ⟨p, leaf, hp, hr, hs, hdata⟩ := hj.source
  obtain ⟨q, goal, hq, hg, hk, hcheck⟩ := hj.sink
  obtain ⟨hnamed, p', sub, hp', hsub, hi⟩ := h.leaf_withLink (d := .output) hp hr hs
  obtain ⟨hnamed', q', sub', hq', hsub', hi'⟩ := h.leaf_withLink (d := .input) hq hg hk
  have hadmits : goal.interface.admits l.data := by
    unfold Port.checkLeaf at hcheck
    split at hcheck
    · cases hcheck
    next hn => simpa using hn
  exact {
    fresh := ⟨rfl, h.not_mem_nextId⟩
    entries := by rw [h.links_withLink]
    gateIds := gateIds_withLink c l
    source_named := hnamed
    sink_named := hnamed'
    source_leaf := ⟨p', sub, source_eq_ok.mpr hp', hsub, hi.trans hdata.symm⟩
    sink_leaf := ⟨q', sub', sink_eq_ok.mpr hq', hsub', by rw [hi']; exact hadmits⟩
    seeded := ⟨hj.current, hj.last⟩
    conforms := hj.accepts
    places := fun {d n p} hp => by
      have hp' : ∃ p', (c.withLink l).port? d n = some p' := by
        rw [port?_withLink, hp]
        exact ⟨_, rfl⟩
      obtain ⟨p', hp'⟩ := hp'
      obtain ⟨q, hq, -, -, hat⟩ := h.port_withLink hj hp'
      rw [hp] at hq
      cases hq
      exact ⟨p', hp', hat⟩ }

theorem Shaped.bindSource_of_bindSink (hc : c.Shaped) (start end_ : LinkEnd) {leaf : Leaf}
    (hleaf : (c.source start.node >>= (·.resolve start.path)) = .ok leaf) {id : LinkId}
    {c' : Circuit Gate} {path : Path}
    (hsink : c.bindSink id leaf.interface end_ = (c', .ok path)) :
    (c'.bindSource id start.node leaf.path).2 = .ok () := by
  cases hs : c.source start.node with
  | error e =>
    rw [hs] at hleaf
    cases hleaf
  | ok p =>
    rw [hs] at hleaf
    have hp := source_eq_ok.mp hs
    obtain ⟨e, he⟩ | ⟨q, goal, hq, hg, -, hk⟩ := bindSink_cases hc id leaf.interface end_
    · rw [hsink] at he
      cases he
    · rw [hsink] at hk
      cases hk
      rw [bindSource_of_bound hc hp hleaf hq hg]

end Circuit

/-- A link that is refused changes nothing but the next id, and its source is never what fails
after its sink was bound; a link that is made comes with all that was asked for. -/
theorem connect_all_or_nothing {face : Face} {c : Circuit Gate}
    (hg : (Gate.circuit face c).Reachable) (start end_ : LinkEnd) (literal : Option Value) :
    (∀ c' e, c.connect start end_ literal = (c', .error e) →
      c' = c ∨ c' = { c with links := { c.links with nextId := c.links.nextId + 1 } }) ∧
    (∀ c' id, c.connect start end_ literal = (c', .ok id) →
      ∃ l, c.LinkMade start end_ literal c' id l) ∧
    ∀ leaf id c' path, (c.source start.node >>= (·.resolve start.path)) = .ok leaf →
      ({ c with links := c.links.reserve } : Circuit Gate).bindSink id leaf.interface end_ =
        (c', .ok path) →
      (c'.bindSource id start.node leaf.path).2 = .ok () := by
  obtain ⟨-, -, hc⟩ := Gate.sound_circuit_iff.mp hg.sound
  have hcases := Circuit.connect_cases hc.wired.shaped start end_ literal
  refine ⟨fun c' e h => ?_, fun c' id h => ?_, fun leaf id c' path hleaf hsink => ?_⟩
  · obtain ⟨e', he⟩ | ⟨e', he⟩ | ⟨l, -, he⟩ := hcases
    · rw [h] at he
      cases he
      exact .inl rfl
    · rw [h] at he
      cases he
      exact .inr rfl
    · rw [h] at he
      cases he
  · obtain ⟨e', he⟩ | ⟨e', he⟩ | ⟨l, hj, he⟩ := hcases
    · rw [h] at he
      cases he
    · rw [h] at he
      cases he
    · rw [h] at he
      cases he
      exact ⟨l, hc.wired.linkMade hj⟩
  · have hr : c.reserved.Shaped := hc.wired.shaped.withLinks
    exact hr.bindSource_of_bindSink start end_ hleaf hsink

theorem connect_all_or_nothing_seeded :
    (Gate.ofCircuit "wire" (.empty .empty)).Reachable ∧
      ∃ l, (Circuit.empty .empty).LinkMade ⟨.boundary, [.next]⟩ ⟨.boundary, [.index 1]⟩ (some .high)
        ((Circuit.empty .empty).connect ⟨.boundary, [.next]⟩ ⟨.boundary, [.index 1]⟩
          (some .high)).1 0 l :=
  ⟨.circuit "wire" .empty, (connect_all_or_nothing (.circuit "wire" .empty) _ _ _).2.1 _ _ rfl⟩

end TickCircuit
