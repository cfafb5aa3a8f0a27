import TickCircuit.Proofs.Gate.Sound
/-!
Circuits that grow. What an insertion makes stands behind what was there, and its links end at new
gates or at the boundary. Main statement: when its links are taken away again, no gate that was
made holds a link (`Extends.unlinked`), so that any of them can go (`Extends.withoutNew`).
-/
namespace TickCircuit

def Node.From (first : GateId) (n : Node) : Prop := ∀ id, n = .gate id → first ≤ id

namespace Circuit
variable {c c' : Circuit Gate}

/-- The circuit has more gates and more links, and the links end at new gates or the boundary. -/
structure Extends (c c' : Circuit Gate) : Prop where
  sound : c'.Sound
  gates : ∃ more, c'.gates = c.gates ++ more ∧ ∀ id ∈ Entries.keys more, c.nextGate ≤ id
  links : ∃ more, c'.links.entries = c.links.entries ++ more ∧
    ∀ id ∈ Entries.keys more, c.links.nextId ≤ id
  ends : ∀ {d id e}, c.links.nextId ≤ id → c'.end? d id = some e → e.node.From c.nextGate
  registry : c'.registry = c.registry
  nextGate : c.nextGate ≤ c'.nextGate
  nextId : c.links.nextId ≤ c'.links.nextId

theorem Extends.refl (h : c.Sound) : c.Extends c where
  sound := h
  gates := ⟨[], by simp [Entries.keys]⟩
  links := ⟨[], by simp [Entries.keys]⟩
  ends hid he := by
    rw [h.wired.end?_eq_none hid] at he
    cases he
  registry := rfl
  nextGate := Nat.le_refl _
  nextId := Nat.le_refl _

theorem Extends.add (h : c.Extends c') {g : Gate} (hg : g.Sound) (hfree : g.Unlinked) :
    c.Extends (c'.add g) where
  sound := h.sound.add hg hfree
  gates := by
    obtain ⟨more, hm, hids⟩ := h.gates
    refine ⟨more ++ [(c'.nextGate, g)], ?_, fun id hid => ?_⟩
    · rw [h.sound.wired.gates_add, hm, List.append_assoc]
    · rw [Entries.keys_append, List.mem_append] at hid
      obtain hid | hid := hid
      · exact hids id hid
      · cases List.mem_singleton.mp hid
        exact h.nextGate
  links := h.links
  ends := h.ends
  registry := h.registry
  nextGate := Nat.le_succ_of_le h.nextGate
  nextId := h.nextId

theorem gates_mapPort_append (hc : c.Wired) (c' : Circuit Gate) {more : List (GateId × Gate)}
    (h : c'.gates = c.gates ++ more) (f : Port → Port) (d : Direction) {n : Node}
    (hn : n.From c.nextGate) :
    ∃ more', (c'.mapPort f d n).gates = c.gates ++ more' ∧
      Entries.keys more' = Entries.keys more := by
  cases n with
  | gate id =>
    have hid : id ∉ Entries.keys c.gates := hc.gate_not_mem (hn id rfl)
    refine ⟨Entries.modify id (·.mapPort f d) more, ?_, Entries.keys_modify _ _ _⟩
    rw [mapPort_gate, modifyGate, h, Entries.modify_append_of_not_mem hid]
  | boundary => cases d <;> exact ⟨more, h, rfl⟩
  | host => cases d <;> exact ⟨more, h, rfl⟩

theorem Extends.reserved (h : c.Extends c') : c.Extends c'.reserved where
  sound := ⟨h.sound.wired.reserved, h.sound.children⟩
  gates := h.gates
  links := h.links
  ends := h.ends
  registry := h.registry
  nextGate := h.nextGate
  nextId := Nat.le_succ_of_le h.nextId

theorem Joins.node_from {start end_ : LinkEnd} {literal : Option Value} {l : Link} {first : GateId}
    (hj : Joins c start end_ literal l) (hs : start.node.From first) (he : end_.node.From first)
    (d : Direction) : (l.endAt d).node.From first := by
  cases d with
  | output =>
    obtain ⟨_, _, -, -, hl, -⟩ := hj.source
    rwa [Link.endAt, hl]
  | input =>
    obtain ⟨_, _, -, -, hl, -⟩ := hj.sink
    rwa [Link.endAt, hl]

theorem Extends.withLink (hc : c.Wired) (h : c.Extends c') {start end_ : LinkEnd}
    {literal : Option Value} {l : Link} (hj : Joins c' start end_ literal l)
    (hs : start.node.From c.nextGate) (he : end_.node.From c.nextGate) :
    c.Extends (c'.withLink l) where
  sound := h.sound.refaced (h.sound.wired.refaced_withLink hj) (h.sound.wired.withLink hj)
  gates := by
    obtain ⟨more, hm, hids⟩ := h.gates
    obtain ⟨more₁, h₁, hk₁⟩ := gates_mapPort_append hc c'.reserved hm
      (fun p => (p.attach l.sink.path c'.links.nextId).1) .input (hj.node_from hs he .input)
    obtain ⟨more₂, h₂, hk₂⟩ := gates_mapPort_append hc _ h₁
      (fun p => (p.attach l.source.path c'.links.nextId).1) .output (hj.node_from hs he .output)
    refine ⟨more₂, h₂, ?_⟩
    rw [hk₂, hk₁]
    exact hids
  links := by
    obtain ⟨more, hm, hids⟩ := h.links
    refine ⟨more ++ [(c'.links.nextId, l)], ?_, fun id hid => ?_⟩
    · rw [h.sound.wired.links_withLink, hm, List.append_assoc]
    · rw [Entries.keys_append, List.mem_append] at hid
      obtain hid | hid := hid
      · exact hids id hid
      · cases List.mem_singleton.mp hid
        exact h.nextId
  ends {d id e} hid hend := by
    rw [h.sound.wired.end?_withLink] at hend
    split at hend
    · cases hend
      exact hj.node_from hs he d
    · exact h.ends hid hend
  registry := by
    have hr : (c'.withLink l).registry = c'.registry := by
      simp only [Circuit.withLink, registry_mapPort]
      rfl
    rw [hr, h.registry]
  nextGate := by
    rw [nextGate_withLink]
    exact h.nextGate
  nextId := by
    rw [h.sound.wired.links_withLink]
    exact Nat.le_succ_of_le h.nextId

theorem Extends.connect (hc : c.Wired) (h : c.Extends c') {start end_ : LinkEnd}
    (hs : start.node.From c.nextGate) (he : end_.node.From c.nextGate) (literal : Option Value) :
    c.Extends (c'.connect start end_ literal).1 := by
  obtain ⟨e, hk⟩ | ⟨e, hk⟩ | ⟨l, hj, hk⟩ := connect_cases h.sound.wired.shaped start end_ literal
  · rw [hk]
    exact h
  · rw [hk]
    exact h.reserved
  · rw [hk]
    exact h.withLink hc hj hs he

theorem Extends.deleteLink (hc : c.Wired) (h : c.Extends c') {id : LinkId}
    (hid : c.links.nextId ≤ id) : c.Extends (c'.deleteLink id) := by
  cases hl : c'.links.get? id with
  | none =>
    rw [deleteLink_of_not_mem (Entries.get?_eq_none_iff.mp hl)]
    exact h
  | some l =>
    have hend : ∀ d, c'.end? d id = some (l.endAt d) := fun d => by rw [end?, hl]; rfl
    have hold : id ∉ Entries.keys c.links.entries := hc.link_not_mem hid
    refine {
      sound := h.sound.deleteLink id
      gates := ?_
      links := ?_
      ends := ?_
      registry := ?_
      nextGate := by rw [nextGate_deleteLink]; exact h.nextGate
      nextId := by rw [links_deleteLink]; exact h.nextId }
    · obtain ⟨more, hm, hids⟩ := h.gates
      obtain ⟨more₁, h₁, hk₁⟩ := gates_mapPort_append hc
        { c' with links := c'.links.erase id } hm (·.detach l.source.path id) .output
        (h.ends hid (hend .output))
      obtain ⟨more₂, h₂, hk₂⟩ := gates_mapPort_append hc _ h₁ (·.detach l.sink.path id) .input
        (h.ends hid (hend .input))
      rw [deleteLink_eq hl]
      refine ⟨more₂, h₂, ?_⟩
      rw [hk₂, hk₁]
      exact hids
    · obtain ⟨more, hm, hids⟩ := h.links
      refine ⟨Entries.erase id more, ?_, fun j hj => hids j ?_⟩
      · rw [links_deleteLink, LinkTable.erase, hm, Entries.erase_append_of_not_mem hold]
      · rw [Entries.keys_erase] at hj
        exact List.mem_of_mem_erase hj
    · intro d j e hj he
      rw [h.sound.wired.end?_deleteLink] at he
      split at he
      · cases he
      · exact h.ends hj he
    · rw [deleteLink_eq hl, registry_mapPort, registry_mapPort]
      exact h.registry

theorem links_deleteLinks (c : Circuit Gate) (ids : List LinkId) :
    (c.deleteLinks ids).links.ids = ids.foldl List.erase c.links.ids := by
  induction ids generalizing c with
  | nil => rfl
  | cons id ids ih =>
    have hids : (c.deleteLink id).links.ids = c.links.ids.erase id := by
      rw [links_deleteLink, LinkTable.ids, LinkTable.erase, Entries.keys_erase]
      rfl
    rw [deleteLinks, List.foldl_cons, List.foldl_cons, ← hids]
    exact ih _

theorem Extends.deleteLinks (hc : c.Wired) (h : c.Extends c') {ids : List LinkId}
    (hids : ∀ id ∈ ids, c.links.nextId ≤ id) : c.Extends (c'.deleteLinks ids) := by
  induction ids generalizing c' with
  | nil => exact h
  | cons id ids ih =>
    exact ih (h.deleteLink hc (hids id List.mem_cons_self))
      fun j hj => hids j (List.mem_cons_of_mem _ hj)

theorem Extends.unlinked (hc : c.Wired) (h : c.Extends c')
    (hlinks : c'.links.entries = c.links.entries) {id : GateId} {g : Gate} (hid : c.nextGate ≤ id)
    (hg : c'.gate? id = some g) : g.Unlinked := by
  intro d path
  have hp : c'.port? d (.gate id) = some (g.port d) := by rw [port?, hg]; rfl
  rw [List.eq_nil_iff_forall_not_mem]
  intro j hj
  have hend := (h.sound.wired.mem_linksAt_iff hp).mp hj
  have hold : c.end? d j = some ⟨.gate id, path⟩ := by
    rw [← hend, end?, end?, LinkTable.get?, LinkTable.get?, hlinks]
  obtain hn | ⟨k, hk, hn⟩ := (port?_isSome c d (.gate id)).mp (hc.ends hold)
  · cases hn
  · cases hn
    exact hc.gate_not_mem hid hk

theorem Extends.withoutNew (hc : c.Wired) (h : c.Extends c')
    (hlinks : c'.links.entries = c.links.entries) {n : Nat}
    (hids : c'.gateIds = c.gateIds ++ List.range' c.nextGate n)
    (hnext : c'.nextGate = c.nextGate + n) {gone : List GateId}
    (hnew : ∀ id ∈ gone, c.nextGate ≤ id) :
    ∃ orphans, c.Enlarged { c' with
        gates := c'.gates.filter fun e => e.1 ∉ gone
        innerInput := c.innerInput
        innerOutput := c.innerOutput } orphans ∧
      (∀ e ∈ orphans, e.2.Sound ∧ e.2.Unlinked) ∧
      Entries.keys orphans = (List.range' c.nextGate n).filter (· ∉ gone) := by
  obtain ⟨more, hmore, hfirst⟩ := h.gates
  have hold : c.gates.filter (fun e => e.1 ∉ gone) = c.gates := by
    rw [List.filter_eq_self]
    intro e he
    have hid : e.1 ∉ gone := fun hid => hc.gate_not_mem (hnew _ hid) (Entries.mem_keys_of_mem he)
    simpa using hid
  have hkeys : Entries.keys (more.filter fun e => e.1 ∉ gone) =
      (List.range' c.nextGate n).filter (· ∉ gone) := by
    rw [gateIds, hmore, Entries.keys_append] at hids
    rw [Entries.keys_filter fun id => decide (id ∉ gone), List.append_cancel_left hids]
  have hsub : (Entries.keys (more.filter fun e => e.1 ∉ gone)).Sublist
      (List.range' c.nextGate n) := by
    rw [hkeys]
    exact List.filter_sublist
  refine ⟨more.filter fun e => e.1 ∉ gone, ?_, fun e he => ?_, hkeys⟩
  · exact {
      gates := by rw [hmore, List.filter_append, hold]
      ids := fun id hid => by
        rw [hnext]
        exact List.mem_range'_1.mp (hsub.subset hid)
      nodup := hsub.nodup List.nodup_range'
      links := hlinks
      innerInput := rfl
      innerOutput := rfl
      registry := h.registry
      nextGate := h.nextGate
      nextId := h.nextId }
  · have hm := (List.mem_filter.mp he).1
    have hg : c'.gate? e.1 = some e.2 := by
      refine Entries.get?_of_mem h.sound.wired.gates_nodup ?_
      rw [hmore]
      exact List.mem_append_right _ hm
    exact ⟨h.sound.children hg, h.unlinked hc hlinks (hfirst _ (Entries.mem_keys_of_mem hm)) hg⟩

end Circuit
end TickCircuit
