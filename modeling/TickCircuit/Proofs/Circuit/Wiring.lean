import TickCircuit.Proofs.Circuit.Link
/-!
The wiring of a circuit. A link stands in three places, the table, its source port and its sink
port; `Wired` says that the three agree. Main statements: making and taking away links, adding,
replacing and taking away gates all keep it.
-/
namespace TickCircuit
namespace Circuit
variable {c : Circuit Gate}

theorem port?_withLink (l : Link) (d : Direction) (n : Node) :
    (c.withLink l).port? d n = (c.port? d n).map fun p =>
      if n = (l.endAt d).node then (p.attach (l.endAt d).path c.links.nextId).1 else p := by
  simp only [withLink, port?_withLinks, port?_mapPort, reserved]
  cases hp : c.port? d n with
  | none => cases d <;> simp
  | some p => cases d <;> simp [Link.endAt, eq_comm] <;> split <;> simp_all

theorem deleteLink_eq {id : LinkId} {l : Link} (hl : c.links.get? id = some l) :
    c.deleteLink id = ({ c with links := c.links.erase id }.mapPort
      (·.detach l.source.path id) .output l.source.node).mapPort
      (·.detach l.sink.path id) .input l.sink.node := by
  simp only [deleteLink, hl]
  rfl

theorem deleteLink_of_not_mem {id : LinkId} (h : id ∉ c.links.ids) : c.deleteLink id = c := by
  have hn : c.links.get? id = none := Entries.get?_eq_none_iff.mpr h
  simp only [deleteLink, hn]

theorem port?_deleteLink {id : LinkId} {l : Link} (hl : c.links.get? id = some l) (d : Direction)
    (n : Node) :
    (c.deleteLink id).port? d n = (c.port? d n).map fun p =>
      if n = (l.endAt d).node then p.detach (l.endAt d).path id else p := by
  simp only [deleteLink_eq hl, port?_withLinks, port?_mapPort]
  cases hp : c.port? d n with
  | none => cases d <;> simp
  | some p => cases d <;> simp [Link.endAt, eq_comm] <;> split <;> simp_all

theorem links_deleteLink (c : Circuit Gate) (id : LinkId) :
    (c.deleteLink id).links = c.links.erase id := by
  cases hl : c.links.get? id with
  | none =>
    have hid := Entries.get?_eq_none_iff.mp hl
    rw [deleteLink_of_not_mem hid, LinkTable.erase, Entries.erase_of_not_mem hid]
  | some l => rw [deleteLink_eq hl, links_mapPort, links_mapPort]

theorem gateIds_deleteLink (c : Circuit Gate) (id : LinkId) :
    (c.deleteLink id).gateIds = c.gateIds := by
  cases hl : c.links.get? id with
  | none => rw [deleteLink_of_not_mem (Entries.get?_eq_none_iff.mp hl)]
  | some l =>
    rw [deleteLink_eq hl, gateIds_mapPort, gateIds_mapPort]
    rfl

theorem nextGate_deleteLink (c : Circuit Gate) (id : LinkId) :
    (c.deleteLink id).nextGate = c.nextGate := by
  cases hl : c.links.get? id with
  | none => rw [deleteLink_of_not_mem (Entries.get?_eq_none_iff.mp hl)]
  | some l => rw [deleteLink_eq hl, nextGate_mapPort, nextGate_mapPort]

/-- Table and ports agree on every link: the port of either end holds it at the path of that end,
once, and no other place in the circuit holds it. Ids in use are below the next ones. -/
structure Wired (c : Circuit Gate) : Prop where
  shaped : c.Shaped
  gates_nodup : c.gateIds.Nodup
  gates_lt : ∀ id ∈ c.gateIds, id < c.nextGate
  links_nodup : c.links.ids.Nodup
  links_lt : ∀ id ∈ c.links.ids, id < c.links.nextId
  ends : ∀ {d id e}, c.end? d id = some e → ∃ p, c.port? d e.node = some p
  count : ∀ {d n p}, c.port? d n = some p → ∀ path id,
    (p.linksAt path).count id = if c.end? d id = some ⟨n, path⟩ then 1 else 0

theorem Wired.innerInput (h : c.Wired) : c.innerInput.Shaped .output :=
  h.shaped (n := .boundary) rfl

theorem Wired.innerOutput (h : c.Wired) : c.innerOutput.Shaped .input :=
  h.shaped (n := .boundary) rfl

theorem Joins.endAt {start end_ : LinkEnd} {literal : Option Value} {l : Link}
    (h : Joins c start end_ literal l) (d : Direction) :
    ∃ p spec leaf, c.port? d (l.endAt d).node = some p ∧ p.resolve spec = .ok leaf ∧
      (l.endAt d).path = leaf.path := by
  cases d with
  | output =>
    obtain ⟨p, leaf, hp, hr, hs, -⟩ := h.source
    exact ⟨p, _, leaf, by rwa [Link.endAt, hs], hr, by rw [Link.endAt, hs]⟩
  | input =>
    obtain ⟨p, leaf, hp, hr, hs, -⟩ := h.sink
    exact ⟨p, _, leaf, by rwa [Link.endAt, hs], hr, by rw [Link.endAt, hs]⟩

theorem Wired.gate_not_mem (h : c.Wired) {id : GateId} (hid : c.nextGate ≤ id) : id ∉ c.gateIds :=
  fun hm => Nat.not_lt_of_le hid (h.gates_lt id hm)

theorem Wired.link_not_mem (h : c.Wired) {id : LinkId} (hid : c.links.nextId ≤ id) :
    id ∉ c.links.ids := fun hm => Nat.not_lt_of_le hid (h.links_lt id hm)

theorem Wired.not_mem_nextId (h : c.Wired) : c.links.nextId ∉ c.links.ids :=
  h.link_not_mem (Nat.le_refl _)

theorem Wired.links_withLink (h : c.Wired) (l : Link) :
    (c.withLink l).links = ⟨c.links.entries ++ [(c.links.nextId, l)], c.links.nextId + 1⟩ := by
  simp only [withLink, links_mapPort, reserved]
  simp only [LinkTable.put, LinkTable.reserve, Entries.put_of_not_mem h.not_mem_nextId]

theorem Wired.ids_withLink (h : c.Wired) (l : Link) :
    (c.withLink l).links.ids = c.links.ids ++ [c.links.nextId] := by
  rw [LinkTable.ids, h.links_withLink, Entries.keys_append]
  rfl

theorem Wired.get?_withLink (h : c.Wired) (l : Link) (id : LinkId) :
    (c.withLink l).links.get? id = if id = c.links.nextId then some l else c.links.get? id := by
  have hn := Entries.get?_eq_none_iff.mpr h.not_mem_nextId
  rw [h.links_withLink, LinkTable.get?, LinkTable.get?, Entries.get?_append]
  by_cases hid : id = c.links.nextId
  · subst hid
    simp [hn, Entries.get?]
  · simp [Entries.get?, hid, Ne.symm hid]

theorem Wired.end?_withLink (h : c.Wired) (l : Link) (d : Direction) (id : LinkId) :
    (c.withLink l).end? d id = if id = c.links.nextId then some (l.endAt d) else c.end? d id := by
  rw [end?, end?, h.get?_withLink]
  split <;> rfl

/-- What a new link changes at a port: it comes last at the path of its end. -/
theorem Wired.port_withLink (h : c.Wired) {start end_ : LinkEnd} {literal : Option Value}
    {l : Link} (hj : Joins c start end_ literal l) {d : Direction} {n : Node} {p : Port}
    (hp : (c.withLink l).port? d n = some p) :
    ∃ q, c.port? d n = some q ∧ p.Shaped d ∧ p.interface = q.interface ∧
      ∀ path, p.linksAt path =
        q.linksAt path ++ if l.endAt d = ⟨n, path⟩ then [c.links.nextId] else [] := by
  rw [port?_withLink] at hp
  obtain ⟨q, hq, rfl⟩ := Option.map_eq_some_iff.mp hp
  refine ⟨q, hq, ?_⟩
  by_cases hn : n = (l.endAt d).node
  · obtain ⟨q', spec, leaf, hq', hr, hpath⟩ := hj.endAt d
    rw [← hn, hq] at hq'
    cases hq'
    obtain ⟨-, hshape, hi, -⟩ := Port.attach_resolved (h.shaped hq) hr c.links.nextId
    rw [if_pos hn, hpath]
    refine ⟨hshape, hi, fun path => ?_⟩
    have hend : l.endAt d = ⟨n, path⟩ ↔ path = leaf.path := by
      rw [← hpath, hn]
      constructor
      · intro he
        rw [he]
      · intro heq
        subst heq
        rfl
    rw [Port.linksAt_attach (Port.grow_follow (h.shaped hq) hr).2.1]
    simp only [hend]
  · rw [if_neg hn]
    refine ⟨h.shaped hq, rfl, fun path => ?_⟩
    rw [if_neg, List.append_nil]
    intro he
    exact hn (by rw [he])

theorem gateIds_withLink (c : Circuit Gate) (l : Link) : (c.withLink l).gateIds = c.gateIds := by
  have h := gateIds_mapPort (c := c.reserved) (fun p => (p.attach l.sink.path c.links.nextId).1)
    .input l.sink.node
  exact (gateIds_mapPort _ _ _).trans h

theorem nextGate_withLink (c : Circuit Gate) (l : Link) : (c.withLink l).nextGate = c.nextGate :=
  (nextGate_mapPort _ _ _).trans (nextGate_mapPort _ _ _)

theorem Wired.end?_eq_none (h : c.Wired) {id : LinkId} (hid : c.links.nextId ≤ id)
    (d : Direction) : c.end? d id = none := by
  rw [end?, LinkTable.get?, Entries.get?_eq_none_iff.mpr (h.link_not_mem hid)]
  rfl

theorem Wired.withLink (h : c.Wired) {start end_ : LinkEnd} {literal : Option Value} {l : Link}
    (hj : Joins c start end_ literal l) : (c.withLink l).Wired where
  shaped d n p hp := by
    obtain ⟨-, -, hs, -⟩ := h.port_withLink hj hp
    exact hs
  gates_nodup := by
    rw [gateIds_withLink]
    exact h.gates_nodup
  gates_lt := by
    rw [gateIds_withLink, nextGate_withLink]
    exact h.gates_lt
  links_nodup := by
    rw [h.ids_withLink, List.nodup_append]
    refine ⟨h.links_nodup, by simp, fun a ha b hb heq => ?_⟩
    cases List.mem_singleton.mp hb
    exact h.not_mem_nextId (heq ▸ ha)
  links_lt id hid := by
    rw [h.ids_withLink] at hid
    rw [h.links_withLink]
    obtain hid | hid := List.mem_append.mp hid
    · exact Nat.lt_succ_of_lt (h.links_lt id hid)
    · cases List.mem_singleton.mp hid
      exact Nat.lt_succ_self _
  ends {d id e} he := by
    have hp : ∃ p, c.port? d e.node = some p := by
      rw [h.end?_withLink] at he
      split at he
      · cases he
        obtain ⟨p, -, -, hp, -⟩ := hj.endAt d
        exact ⟨p, hp⟩
      · exact h.ends he
    obtain ⟨p, hp⟩ := hp
    rw [port?_withLink, hp]
    exact ⟨_, rfl⟩
  count {d n p} hp path id := by
    obtain ⟨q, hq, -, -, hat⟩ := h.port_withLink hj hp
    rw [hat, List.count_append, h.count hq, h.end?_withLink]
    by_cases hid : id = c.links.nextId
    · subst hid
      rw [h.end?_eq_none (Nat.le_refl _)]
      by_cases he : l.endAt d = ⟨n, path⟩ <;> simp [he]
    · have hz : (if l.endAt d = ⟨n, path⟩ then [c.links.nextId] else []).count id = 0 := by
        split <;> simp [Ne.symm hid]
      rw [hz, if_neg hid, Nat.add_zero]

theorem Wired.reserved (h : c.Wired) : c.reserved.Wired where
  shaped := h.shaped.withLinks
  gates_nodup := h.gates_nodup
  gates_lt := h.gates_lt
  links_nodup := h.links_nodup
  links_lt id hid := Nat.lt_succ_of_lt (h.links_lt id hid)
  ends he := by
    obtain ⟨p, hp⟩ := h.ends he
    exact ⟨p, by rwa [Circuit.reserved, port?_withLinks]⟩
  count hp path id := by
    rw [Circuit.reserved, port?_withLinks] at hp
    exact h.count hp path id

theorem Wired.connect (h : c.Wired) (start end_ : LinkEnd) (literal : Option Value) :
    (c.connect start end_ literal).1.Wired := by
  obtain ⟨e, he⟩ | ⟨e, he⟩ | ⟨l, hj, he⟩ := connect_cases h.shaped start end_ literal
  · rw [he]
    exact h
  · rw [he]
    exact h.reserved
  · rw [he]
    exact h.withLink hj

theorem Wired.end?_deleteLink (h : c.Wired) (id : LinkId) (d : Direction) (j : LinkId) :
    (c.deleteLink id).end? d j = if id = j then none else c.end? d j := by
  rw [end?, links_deleteLink, LinkTable.get?, LinkTable.erase, Entries.get?_erase h.links_nodup]
  split
  · rfl
  · rfl

theorem Wired.not_mem_linksAt (h : c.Wired) {d : Direction} {n : Node} {p : Port}
    (hp : c.port? d n = some p) {path : Path} {id : LinkId}
    (he : c.end? d id ≠ some ⟨n, path⟩) : id ∉ p.linksAt path := by
  rw [← List.count_eq_zero, h.count hp, if_neg he]

theorem Wired.mem_linksAt_iff (h : c.Wired) {d : Direction} {n : Node} {p : Port}
    (hp : c.port? d n = some p) {path : Path} {id : LinkId} :
    id ∈ p.linksAt path ↔ c.end? d id = some ⟨n, path⟩ := by
  rw [← List.count_pos_iff, h.count hp]
  split <;> simp_all

/-- What a deletion changes at a port: the link is gone wherever it was. -/
theorem Wired.port_deleteLink (h : c.Wired) {id : LinkId} {d : Direction} {n : Node} {p : Port}
    (hp : (c.deleteLink id).port? d n = some p) :
    ∃ q, c.port? d n = some q ∧ p.Shaped d ∧ p.interface = q.interface ∧ ∀ path,
      p.linksAt path = (q.linksAt path).filter (· ≠ id) := by
  have hkeep : ∀ {q path}, c.port? d n = some q → c.end? d id ≠ some ⟨n, path⟩ →
      q.linksAt path = (q.linksAt path).filter (· ≠ id) := by
    intro q path hq he
    have hid := h.not_mem_linksAt hq he
    symm
    rw [List.filter_eq_self]
    intro x hx
    have : x ≠ id := fun hxi => hid (hxi ▸ hx)
    simpa using this
  cases hl : c.links.get? id with
  | none =>
    rw [deleteLink_of_not_mem (Entries.get?_eq_none_iff.mp hl)] at hp
    exact ⟨p, hp, h.shaped hp, rfl, fun path => hkeep hp (by simp [end?, hl])⟩
  | some l =>
    have hend : c.end? d id = some (l.endAt d) := by simp [end?, hl]
    rw [port?_deleteLink hl] at hp
    obtain ⟨q, hq, rfl⟩ := Option.map_eq_some_iff.mp hp
    refine ⟨q, hq, ?_⟩
    by_cases hn : n = (l.endAt d).node
    · have hd := (h.shaped hq).detach (l.endAt d).path id
      rw [if_pos hn]
      refine ⟨hd.1, hd.2, fun path => ?_⟩
      rw [Port.linksAt_detach]
      split
      next hpath => rw [hpath]
      next hpath =>
        refine hkeep hq fun he => ?_
        rw [hend] at he
        exact hpath (by rw [Option.some.inj he])
    · rw [if_neg hn]
      refine ⟨h.shaped hq, rfl, fun path => hkeep hq fun he => ?_⟩
      rw [hend] at he
      exact hn (by rw [Option.some.inj he])

theorem port?_deleteLink_isSome (c : Circuit Gate) (id : LinkId) (d : Direction) (n : Node) :
    ((c.deleteLink id).port? d n).isSome = (c.port? d n).isSome := by
  cases hl : c.links.get? id with
  | none => rw [deleteLink_of_not_mem (Entries.get?_eq_none_iff.mp hl)]
  | some l => rw [port?_deleteLink hl, Option.isSome_map]

theorem Wired.deleteLink (h : c.Wired) (id : LinkId) : (c.deleteLink id).Wired where
  shaped d n p hp := by
    obtain ⟨-, -, hs, -⟩ := h.port_deleteLink hp
    exact hs
  gates_nodup := by
    rw [gateIds_deleteLink]
    exact h.gates_nodup
  gates_lt := by
    rw [gateIds_deleteLink, nextGate_deleteLink]
    exact h.gates_lt
  links_nodup := by
    rw [links_deleteLink, LinkTable.ids, LinkTable.erase, Entries.keys_erase]
    exact h.links_nodup.erase id
  links_lt j hj := by
    rw [links_deleteLink] at hj ⊢
    rw [LinkTable.ids, LinkTable.erase, Entries.keys_erase] at hj
    exact h.links_lt j (List.mem_of_mem_erase hj)
  ends {d j e} he := by
    rw [h.end?_deleteLink] at he
    split at he
    · cases he
    · obtain ⟨p, hp⟩ := h.ends he
      rw [← Option.isSome_iff_exists, port?_deleteLink_isSome, hp]
      rfl
  count {d n p} hp path j := by
    obtain ⟨q, hq, -, -, hat⟩ := h.port_deleteLink hp
    rw [hat, h.end?_deleteLink]
    by_cases hj : id = j
    · subst hj
      rw [if_pos rfl, if_neg (by simp), List.count_eq_zero]
      simp
    · rw [List.count_filter (by simpa using Ne.symm hj), h.count hq, if_neg hj]

theorem Wired.deleteLinks (h : c.Wired) (ids : List LinkId) : (c.deleteLinks ids).Wired := by
  induction ids generalizing c with
  | nil => exact h
  | cons id ids ih => exact ih (h.deleteLink id)

theorem Wired.port_deleteLinks (h : c.Wired) {ids : List LinkId} {d : Direction} {n : Node}
    {p : Port} (hp : (c.deleteLinks ids).port? d n = some p) :
    ∃ q, c.port? d n = some q ∧ p.interface = q.interface ∧
      ∀ path, p.linksAt path = (q.linksAt path).filter (· ∉ ids) := by
  induction ids generalizing c with
  | nil => exact ⟨p, hp, rfl, fun path => (List.filter_eq_self.mpr (by simp)).symm⟩
  | cons id ids ih =>
    obtain ⟨r, hr, hri, hat⟩ := ih (h.deleteLink id) hp
    obtain ⟨q, hq, -, hqi, hat'⟩ := h.port_deleteLink hr
    refine ⟨q, hq, hri.trans hqi, fun path => ?_⟩
    rw [hat, hat', List.filter_filter]
    congr 1
    funext x
    simp [Bool.and_comm]

def withoutGate (c : Circuit Gate) (id : GateId) : Circuit Gate :=
  { c with gates := Entries.erase id c.gates }

theorem Wired.port?_withoutGate (h : c.Wired) (id : GateId) (d : Direction) (n : Node) :
    (c.withoutGate id).port? d n = if n = .gate id then none else c.port? d n := by
  cases n with
  | gate j =>
    simp only [port?, gate?, withoutGate, Entries.get?_erase h.gates_nodup, Node.gate.injEq]
    by_cases hj : id = j
    · simp [hj]
    · simp [hj, Ne.symm hj]
  | boundary => cases d <;> rfl
  | host => cases d <;> rfl

theorem Wired.withoutGate (h : c.Wired) {id : GateId}
    (hfree : ∀ d p path, c.port? d (.gate id) = some p → p.linksAt path = []) :
    (c.withoutGate id).Wired where
  shaped d n p hp := by
    rw [h.port?_withoutGate] at hp
    split at hp
    · cases hp
    · exact h.shaped hp
  gates_nodup := by
    rw [gateIds, Circuit.withoutGate, Entries.keys_erase]
    exact h.gates_nodup.erase id
  gates_lt j hj := by
    rw [gateIds, Circuit.withoutGate, Entries.keys_erase] at hj
    exact h.gates_lt j (List.mem_of_mem_erase hj)
  links_nodup := h.links_nodup
  links_lt := h.links_lt
  ends {d j e} he := by
    have hend : c.end? d j = some e := he
    obtain ⟨p, hp⟩ := h.ends hend
    rw [h.port?_withoutGate, if_neg]
    · exact ⟨p, hp⟩
    · intro hn
      rw [hn] at hp
      have hj : j ∈ p.linksAt e.path := (h.mem_linksAt_iff hp).mpr (by rw [← hn]; exact he)
      rw [hfree d p e.path hp] at hj
      cases hj
  count {d n p} hp path j := by
    rw [h.port?_withoutGate] at hp
    split at hp
    · cases hp
    · exact h.count hp path j

theorem removeGate_eq {id : GateId} {g : Gate} (hg : c.gate? id = some g) :
    (c.removeGate id).1 =
      (c.deleteLinks (g.input.allLinks ++ g.output.allLinks)).withoutGate id := by
  simp only [removeGate, hg]
  rfl

theorem Wired.removeGate (h : c.Wired) (id : GateId) : (c.removeGate id).1.Wired := by
  cases hg : c.gate? id with
  | none =>
    simp only [Circuit.removeGate, hg]
    exact h
  | some g =>
    rw [removeGate_eq hg]
    refine (h.deleteLinks _).withoutGate fun d p path hp => ?_
    obtain ⟨q, hq, -, hat⟩ := h.port_deleteLinks hp
    have hqg : q = g.port d := by
      simp only [port?, hg, Option.map_some, Option.some.injEq] at hq
      exact hq.symm
    rw [hat, List.filter_eq_nil_iff]
    intro x hx
    have hall : x ∈ (g.port d).allLinks := Port.mem_allLinks.mpr ⟨path, hqg ▸ hx⟩
    cases d <;> simp_all [Gate.port]

theorem port?_isSome (c : Circuit Gate) (d : Direction) (n : Node) :
    (∃ p, c.port? d n = some p) ↔ n = .boundary ∨ ∃ id ∈ c.gateIds, n = .gate id := by
  cases n with
  | gate id =>
    rw [← Option.isSome_iff_exists, port?, Option.isSome_map, gate?, Option.isSome_iff_exists]
    simp [gateIds, Entries.mem_keys_iff]
  | boundary => cases d <;> simp [port?]
  | host => cases d <;> simp [port?]

/-- Whatever leaves each link at its place in the ports and in the table keeps the wiring. -/
theorem Wired.of_same_places (h : c.Wired) {c' : Circuit Gate} (hgates : c'.gateIds = c.gateIds)
    (hnext : c'.nextGate = c.nextGate) (hids : c'.links.ids = c.links.ids)
    (hid : c'.links.nextId = c.links.nextId) (hends : ∀ d id, c'.end? d id = c.end? d id)
    (hports : ∀ {d n p}, c'.port? d n = some p → p.Shaped d ∧
      ∃ q, c.port? d n = some q ∧ ∀ path, p.linksAt path = q.linksAt path) : c'.Wired where
  shaped _ _ _ hp := (hports hp).1
  gates_nodup := by
    rw [hgates]
    exact h.gates_nodup
  gates_lt := by
    rw [hgates, hnext]
    exact h.gates_lt
  links_nodup := by
    rw [hids]
    exact h.links_nodup
  links_lt := by
    rw [hids, hid]
    exact h.links_lt
  ends {d id e} he := by
    rw [hends] at he
    rw [port?_isSome, hgates, ← port?_isSome c d]
    exact h.ends he
  count {d n p} hp path id := by
    obtain ⟨-, q, hq, hat⟩ := hports hp
    rw [hat, hends, h.count hq]

end Circuit

def Gate.PortsShaped (g : Gate) : Prop := ∀ d, (g.port d).Shaped d

/-- No link is attached to a port of the gate. -/
def Gate.Unlinked (g : Gate) : Prop := ∀ d path, (g.port d).linksAt path = []

/-- The ports of the gates hold the same links at the same paths. -/
def Gate.SamePlaces (g h : Gate) : Prop :=
  ∀ d path, (h.port d).linksAt path = (g.port d).linksAt path

namespace Circuit
variable {c : Circuit Gate}

theorem port?_modifyGate (c : Circuit Gate) (id : GateId) (f : Gate → Gate) (d : Direction)
    (n : Node) :
    (c.modifyGate id f).port? d n =
      if n = .gate id then (c.gate? id).map fun g => (f g).port d else c.port? d n := by
  cases n with
  | gate j =>
    simp only [port?, gate?, modifyGate, Entries.get?_modify, Node.gate.injEq]
    by_cases hj : id = j
    · subst hj
      simp [Function.comp_def]
    · simp [hj, Ne.symm hj]
  | boundary => cases d <;> simp [port?, modifyGate]
  | host => cases d <;> simp [port?]

/-- A gate may change behind its ports, and in their interfaces. -/
theorem Wired.replaceGate (h : c.Wired) {id : GateId} {g g' : Gate} (hg : c.gate? id = some g)
    (hshape : g'.PortsShaped) (hsame : g.SamePlaces g') :
    (c.modifyGate id fun _ => g').Wired := by
  refine h.of_same_places (Entries.keys_modify _ _ _) rfl rfl rfl (fun _ _ => rfl) ?_
  intro d n p hp
  rw [port?_modifyGate] at hp
  split at hp
  next hn =>
    rw [hg, Option.map_some, Option.some.injEq] at hp
    subst hp
    exact ⟨hshape d, g.port d, by rw [hn, port?, hg]; rfl, hsame d⟩
  next => exact ⟨h.shaped hp, p, hp, fun _ => rfl⟩

theorem Wired.gates_add (h : c.Wired) (g : Gate) :
    (c.add g).gates = c.gates ++ [(c.nextGate, g)] :=
  Entries.put_of_not_mem (h.gate_not_mem (Nat.le_refl _)) g

/-- The circuit has more gates at the end, and ids may have been given out; all else is as it
was. -/
structure Enlarged (c c' : Circuit Gate) (more : List (GateId × Gate)) : Prop where
  gates : c'.gates = c.gates ++ more
  ids : ∀ id ∈ Entries.keys more, c.nextGate ≤ id ∧ id < c'.nextGate
  nodup : (Entries.keys more).Nodup
  links : c'.links.entries = c.links.entries
  innerInput : c'.innerInput = c.innerInput
  innerOutput : c'.innerOutput = c.innerOutput
  registry : c'.registry = c.registry
  nextGate : c.nextGate ≤ c'.nextGate
  nextId : c.links.nextId ≤ c'.links.nextId

theorem Enlarged.gateIds {c' : Circuit Gate} {more : List (GateId × Gate)}
    (he : c.Enlarged c' more) : c'.gateIds = c.gateIds ++ Entries.keys more := by
  rw [Circuit.gateIds, he.gates, Entries.keys_append]
  rfl

theorem Enlarged.port? {c' : Circuit Gate} {more : List (GateId × Gate)}
    (he : c.Enlarged c' more) {d : Direction} {n : Node} {p : Port} (hp : c'.port? d n = some p) :
    c.port? d n = some p ∨ ∃ id g, n = .gate id ∧ (id, g) ∈ more ∧ p = g.port d := by
  cases n with
  | gate id =>
    rw [Circuit.port?, gate?, he.gates, Entries.get?_append] at hp
    obtain ⟨g, hg, rfl⟩ := Option.map_eq_some_iff.mp hp
    obtain hg | ⟨-, hg⟩ := Option.or_eq_some_iff.mp hg
    · exact .inl (by rw [Circuit.port?, gate?, hg]; rfl)
    · exact .inr ⟨id, g, rfl, Entries.mem_of_get? hg, rfl⟩
  | boundary =>
    cases d with
    | output => exact .inl (by rw [← hp, Circuit.port?, Circuit.port?, he.innerInput])
    | input => exact .inl (by rw [← hp, Circuit.port?, Circuit.port?, he.innerOutput])
  | host => cases d <;> cases hp

theorem Wired.enlarged (h : c.Wired) {c' : Circuit Gate} {more : List (GateId × Gate)}
    (he : c.Enlarged c' more) (hmore : ∀ e ∈ more, e.2.PortsShaped ∧ e.2.Unlinked) : c'.Wired where
  shaped d n p hp := by
    obtain hp | ⟨id, g, -, hg, rfl⟩ := he.port? hp
    · exact h.shaped hp
    · exact (hmore _ hg).1 d
  gates_nodup := by
    rw [he.gateIds, List.nodup_append]
    refine ⟨h.gates_nodup, he.nodup, fun a ha b hb heq => ?_⟩
    exact h.gate_not_mem (he.ids b hb).1 (heq ▸ ha)
  gates_lt id hid := by
    rw [he.gateIds] at hid
    obtain hid | hid := List.mem_append.mp hid
    · exact Nat.lt_of_lt_of_le (h.gates_lt id hid) he.nextGate
    · exact (he.ids id hid).2
  links_nodup := by
    rw [LinkTable.ids, he.links]
    exact h.links_nodup
  links_lt id hid := by
    rw [LinkTable.ids, he.links] at hid
    exact Nat.lt_of_lt_of_le (h.links_lt id hid) he.nextId
  ends {d id e} hend := by
    rw [end?, LinkTable.get?, he.links] at hend
    rw [port?_isSome, he.gateIds]
    obtain hn | ⟨j, hj, hn⟩ := (port?_isSome c d e.node).mp (h.ends hend)
    · exact .inl hn
    · exact .inr ⟨j, List.mem_append_left _ hj, hn⟩
  count {d n p} hp path id := by
    have hends : c'.end? d id = c.end? d id := by
      rw [end?, LinkTable.get?, he.links]
      rfl
    rw [hends]
    obtain hp | ⟨j, g, rfl, hg, rfl⟩ := he.port? hp
    · exact h.count hp path id
    · have hj : c.nextGate ≤ j := (he.ids j (Entries.mem_keys_of_mem hg)).1
      rw [(hmore _ hg).2 d path, if_neg]
      · rfl
      · intro hend
        obtain hn | ⟨i, hi, hn⟩ := (port?_isSome c d (.gate j)).mp (h.ends hend)
        · cases hn
        · cases hn
          exact h.gate_not_mem hj hi

theorem Wired.enlarged_add (h : c.Wired) (g : Gate) : c.Enlarged (c.add g) [(c.nextGate, g)] where
  gates := h.gates_add g
  ids id hid := by
    cases List.mem_singleton.mp hid
    exact ⟨Nat.le_refl _, Nat.lt_succ_self _⟩
  nodup := by simp [Entries.keys]
  links := rfl
  innerInput := rfl
  innerOutput := rfl
  registry := rfl
  nextGate := Nat.le_succ _
  nextId := Nat.le_refl _

theorem Wired.add (h : c.Wired) {g : Gate} (hshape : g.PortsShaped) (hfree : g.Unlinked) :
    (c.add g).Wired := by
  refine h.enlarged (h.enlarged_add g) fun e he => ?_
  cases List.mem_singleton.mp he
  exact ⟨hshape, hfree⟩

end Circuit
end TickCircuit
