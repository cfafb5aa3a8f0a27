import TickCircuit.Proofs.Gate.Influence
/-!
What is taken away with a link or a gate. `without` strikes links from a whole circuit, its table
and all of its ports, and changes nothing else. Main statement: taking away a link strikes that one
link, and taking away a gate strikes the links that begin or end there and then the gate
(`removal_takes_exactly`).
-/
namespace TickCircuit
namespace Port

mutual
/-- The port without some links, at every depth. -/
def without (ids : List LinkId) : Port → Port
  | ⟨direction, interface, links, subs⟩ =>
    ⟨direction, interface, links.filter (· ∉ ids), withoutAll ids subs⟩
def withoutAll (ids : List LinkId) : List Port → List Port
  | [] => []
  | p :: ps => without ids p :: withoutAll ids ps
end

theorem withoutAll_eq_map (ids : List LinkId) (subs : List Port) :
    withoutAll ids subs = subs.map (without ids) :=
  eq_map_of_cons (withoutAll ids) rfl (fun _ _ => rfl) subs

theorem linksAt_without (ids : List LinkId) (p : Port) (path : Path) :
    (p.without ids).linksAt path = (p.linksAt path).filter (· ∉ ids) := by
  induction path generalizing p with
  | nil =>
    obtain ⟨d, i, ls, subs⟩ := p
    rfl
  | cons k path ih =>
    obtain ⟨d, i, ls, subs⟩ := p
    rw [linksAt_cons, linksAt_cons, without, withoutAll_eq_map, List.getElem?_map]
    cases subs[k]? with
    | none => rfl
    | some q => exact ih q

theorem without_eq_self {ids : List LinkId} {p : Port} (h : ∀ id ∈ ids, id ∉ p.allLinks) :
    p.without ids = p := by
  induction p with
  | mk d i ls subs ih =>
    have hls : ls.filter (· ∉ ids) = ls := by
      rw [List.filter_eq_self]
      intro id hid
      simpa using fun hmem => h id hmem (List.mem_append_left _ hid)
    have hsubs : ∀ q ∈ subs, q.without ids = id q := fun q hq =>
      ih q hq fun j hj hmem => h j hj (List.mem_append_right _ (mem_linksBelow.mpr ⟨q, hq, hmem⟩))
    rw [without, hls, withoutAll_eq_map, List.map_congr_left hsubs, List.map_id]

theorem without_without (xs ys : List LinkId) (p : Port) :
    (p.without xs).without ys = p.without (xs ++ ys) := by
  induction p with
  | mk d i ls subs ih =>
    have hls : (ls.filter (· ∉ xs)).filter (· ∉ ys) = ls.filter (· ∉ xs ++ ys) := by
      rw [List.filter_filter]
      congr 1
      funext x
      simp [Bool.and_comm]
    simp only [without, withoutAll_eq_map, List.map_map, hls, Port.mk.injEq, true_and]
    exact List.map_congr_left ih

theorem without_congr {xs ys : List LinkId} (h : ∀ id, id ∈ xs ↔ id ∈ ys) (p : Port) :
    p.without xs = p.without ys := by
  induction p with
  | mk d i ls subs ih =>
    simp only [without, withoutAll_eq_map, h]
    rw [List.map_congr_left ih]

/-- To take a link from the one place where it is attached is to strike it from the port. -/
theorem detach_eq_without {id : LinkId} {path : Path} {p : Port}
    (h : ∀ π, id ∈ p.linksAt π → π = path) : p.detach path id = p.without [id] := by
  induction path generalizing p with
  | nil =>
    obtain ⟨d, i, ls, subs⟩ := p
    have hsubs : ∀ q ∈ subs, q.without [id] = q := by
      intro q hq
      refine without_eq_self fun j hj hmem => ?_
      cases List.mem_singleton.mp hj
      obtain ⟨π, hπ⟩ := mem_allLinks.mp hmem
      obtain ⟨k, hk⟩ := List.getElem?_of_mem hq
      have hnil := h (k :: π) (by simpa [linksAt_cons, hk] using hπ)
      cases hnil
    rw [without, withoutAll_eq_map, List.map_congr_left hsubs, List.map_id']
    simp [detach, modifyAt]
  | cons k path ih =>
    obtain ⟨d, i, ls, subs⟩ := p
    have hls : ls.filter (· ∉ [id]) = ls := by
      rw [List.filter_eq_self]
      intro j hj
      have hne : j ≠ id := by
        intro heq
        subst heq
        cases h [] hj
      simpa using hne
    have hsubs : subs.modify k (·.detach path id) = subs.map (without [id]) := by
      refine List.ext_getElem? fun j => ?_
      rw [List.getElem?_modify, List.getElem?_map]
      cases hq : subs[j]? with
      | none => simp
      | some q =>
        have hbelow : ∀ π, id ∈ q.linksAt π → j :: π = k :: path := fun π hπ =>
          h (j :: π) (by simpa [linksAt_cons, hq] using hπ)
        by_cases hk : k = j
        · subst hk
          simp [ih fun π hπ => List.tail_eq_of_cons_eq (hbelow π hπ)]
        · have hself : q.without [id] = q := by
            refine without_eq_self fun i hi hmem => ?_
            cases List.mem_singleton.mp hi
            obtain ⟨π, hπ⟩ := mem_allLinks.mp hmem
            exact hk (List.head_eq_of_cons_eq (hbelow π hπ)).symm
          simp [hk, hself]
    rw [without, hls, withoutAll_eq_map, ← hsubs]
    rfl

end Port

def Gate.without (ids : List LinkId) (g : Gate) : Gate :=
  (g.mapPort (·.without ids) .output).mapPort (·.without ids) .input

theorem Gate.port_without (ids : List LinkId) (g : Gate) (d : Direction) :
    (g.without ids).port d = (g.port d).without ids := by
  cases d <;> simp [without, port_mapPort]

theorem Gate.without_eq_self {ids : List LinkId} {g : Gate}
    (h : ∀ d, (g.port d).without ids = g.port d) : g.without ids = g := by
  have hin : ((g.mapPort (·.without ids) .output).port .input).without ids =
      id ((g.mapPort (·.without ids) .output).port .input) := by
    rw [port_mapPort]
    exact h .input
  rw [without, mapPort_congr hin, mapPort_id, mapPort_congr (g := id) (h .output), mapPort_id]

theorem Gate.without_without (xs ys : List LinkId) (g : Gate) :
    (g.without xs).without ys = g.without (xs ++ ys) := by
  cases g <;> simp [without, mapPort, mapInput, mapOutput, mapFace, Port.without_without]

theorem Gate.without_congr {xs ys : List LinkId} (h : ∀ id, id ∈ xs ↔ id ∈ ys) (g : Gate) :
    g.without xs = g.without ys := by
  simp only [without, Port.without_congr h]

theorem Gate.mapPort_id' (d : Direction) (g : Gate) : g.mapPort (fun p => p) d = g := g.mapPort_id d

attribute [ext] Circuit

namespace Circuit

/-- The circuit without some links, in the table and at its ports. -/
def without (ids : List LinkId) (c : Circuit Gate) : Circuit Gate :=
  { c with
    gates := c.gates.map fun (id, g) => (id, g.without ids)
    links := { c.links with entries := c.links.entries.filter fun (id, _) => id ∉ ids }
    innerInput := c.innerInput.without ids
    innerOutput := c.innerOutput.without ids }

def linksOf (c : Circuit Gate) (id : GateId) : List LinkId :=
  Entries.keys <| c.links.entries.filter fun (_, l) =>
    l.source.node = .gate id ∨ l.sink.node = .gate id

variable {c : Circuit Gate}

theorem gates_mapPort (hn : c.gateIds.Nodup) (f : Port → Port) (d : Direction) (n : Node) :
    (c.mapPort f d n).gates =
      c.gates.map fun (id, g) => (id, g.mapPort (fun p => if .gate id = n then f p else p) d) := by
  have hself : c.gates = c.gates.map fun (id, g) => (id, g.mapPort (fun p => p) d) := by
    simp only [Gate.mapPort_id' d]
    exact (List.map_id' _).symm
  cases n with
  | gate j =>
    rw [mapPort_gate, modifyGate, Entries.modify_eq_map hn]
    refine List.map_congr_left fun e _ => ?_
    by_cases hj : e.1 = j
    · simp [hj]
    · simp [hj, Gate.mapPort_id']
  | boundary => cases d <;> exact hself
  | host => cases d <;> exact hself

theorem without_without (xs ys : List LinkId) (c : Circuit Gate) :
    (c.without xs).without ys = c.without (xs ++ ys) := by
  ext1
  · simp [without, Gate.without_without]
  · simp [without, List.filter_filter, Bool.and_comm]
  · exact Port.without_without xs ys _
  · exact Port.without_without xs ys _
  · rfl
  · rfl

theorem without_congr {xs ys : List LinkId} (h : ∀ id, id ∈ xs ↔ id ∈ ys) (c : Circuit Gate) :
    c.without xs = c.without ys := by
  simp only [without, Gate.without_congr h, Port.without_congr h, h]

theorem gate?_without (ids : List LinkId) (c : Circuit Gate) (id : GateId) :
    (c.without ids).gate? id = (c.gate? id).map (·.without ids) :=
  Entries.get?_map _ _ _

theorem Wired.port?_of_mem (h : c.Wired) {id : GateId} {g : Gate} (hg : (id, g) ∈ c.gates)
    (d : Direction) : c.port? d (.gate id) = some (g.port d) := by
  rw [port?, gate?, Entries.get?_of_mem h.gates_nodup hg]
  rfl

theorem Wired.detach_eq (h : c.Wired) {id : LinkId} {l : Link} (hl : c.links.get? id = some l)
    {d : Direction} {n : Node} {p : Port} (hp : c.port? d n = some p) :
    (if n = (l.endAt d).node then p.detach (l.endAt d).path id else p) = p.without [id] := by
  have hend : ∀ path, id ∈ p.linksAt path → l.endAt d = ⟨n, path⟩ := by
    intro path hmem
    have he := (h.mem_linksAt_iff hp).mp hmem
    rw [end?, hl] at he
    exact Option.some.inj he
  split
  · exact Port.detach_eq_without fun π hπ => by rw [hend π hπ]
  next hn =>
    refine (Port.without_eq_self fun j hj hmem => ?_).symm
    cases List.mem_singleton.mp hj
    obtain ⟨path, hpath⟩ := Port.mem_allLinks.mp hmem
    exact hn (by rw [hend path hpath])

theorem Wired.mapPort_detach (h : c.Wired) {id : LinkId} {l : Link} (hl : c.links.get? id = some l)
    {e : GateId × Gate} (he : e ∈ c.gates) {d : Direction} {g : Gate} (hg : g.port d = e.2.port d) :
    g.mapPort (fun p =>
        if .gate e.1 = (l.endAt d).node then p.detach (l.endAt d).path id else p) d =
      g.mapPort (·.without [id]) d := by
  refine Gate.mapPort_congr ?_
  rw [hg]
  exact h.detach_eq hl (h.port?_of_mem he d)

theorem Wired.without_eq_self (h : c.Wired) {ids : List LinkId}
    (hids : ∀ id ∈ ids, id ∉ c.links.ids) : c.without ids = c := by
  have hport : ∀ {d n p}, c.port? d n = some p → p.without ids = p := by
    intro d n p hp
    refine Port.without_eq_self fun id hid hmem => hids id hid ?_
    exact Entries.has_eq_true_iff.mp (h.live hp hmem)
  have hgate : ∀ e ∈ c.gates, (e.1, e.2.without ids) = e := by
    intro e he
    rw [Gate.without_eq_self fun d => hport (h.port?_of_mem he d)]
  ext1
  · exact (List.map_congr_left hgate).trans (List.map_id' _)
  · ext1
    · simp only [without, List.filter_eq_self]
      intro e he
      have hid : e.1 ∉ ids := fun hid => hids e.1 hid (Entries.mem_keys_of_mem (a := e.2) he)
      simpa using hid
    · rfl
  · exact hport (d := .output) (n := .boundary) rfl
  · exact hport (d := .input) (n := .boundary) rfl
  · rfl
  · rfl

theorem Wired.deleteLink_eq_without (h : c.Wired) (id : LinkId) :
    c.deleteLink id = c.without [id] := by
  cases hl : c.links.get? id with
  | none =>
    have hid := Entries.get?_eq_none_iff.mp hl
    have hids : ∀ j ∈ [id], j ∉ c.links.ids := List.forall_mem_singleton.mpr hid
    rw [deleteLink_of_not_mem hid, h.without_eq_self hids]
  | some l =>
    have hinner : ∀ {d p p'}, c.port? d .boundary = some p →
        (c.deleteLink id).port? d .boundary = some p' → p' = p.without [id] := by
      intro d p p' hp hp'
      rw [port?_deleteLink hl, hp, Option.map_some, h.detach_eq hl hp] at hp'
      exact (Option.some.inj hp').symm
    ext1
    · rw [deleteLink_eq hl, gates_mapPort, gates_mapPort, List.map_map]
      · refine List.map_congr_left fun e he => congrArg (e.1, ·) ?_
        have hport : (e.2.mapPort (·.without [id]) .output).port .input = e.2.port .input :=
          Gate.port_mapPort _ _ _ _
        exact (congrArg (Gate.mapPort _ .input) (h.mapPort_detach hl he rfl)).trans
          (h.mapPort_detach hl he hport)
      · exact h.gates_nodup
      · rw [gateIds_mapPort]
        exact h.gates_nodup
    · rw [links_deleteLink, LinkTable.erase, Entries.erase_eq_filter h.links_nodup]
      simp [without]
    · exact hinner (d := .output) rfl rfl
    · exact hinner (d := .input) rfl rfl
    · rw [deleteLink_eq hl, registry_mapPort, registry_mapPort]
      rfl
    · exact nextGate_deleteLink c id

theorem Wired.deleteLinks_eq_without (h : c.Wired) (ids : List LinkId) :
    c.deleteLinks ids = c.without ids := by
  induction ids generalizing c with
  | nil => exact (h.without_eq_self (by simp)).symm
  | cons id ids ih =>
    have hstep : c.deleteLinks (id :: ids) = (c.deleteLink id).deleteLinks ids := rfl
    rw [hstep, ih (h.deleteLink id), h.deleteLink_eq_without, without_without]
    rfl

theorem Wired.mem_linksOf (h : c.Wired) {id : GateId} {x : LinkId} :
    x ∈ c.linksOf id ↔ ∃ d path, c.end? d x = some ⟨.gate id, path⟩ := by
  constructor
  · intro hx
    obtain ⟨l, hl⟩ := Entries.mem_keys_iff.mp hx
    obtain ⟨hmem, hnode⟩ := List.mem_filter.mp (Entries.mem_of_get? hl)
    have hget : c.links.get? x = some l := Entries.get?_of_mem h.links_nodup hmem
    obtain hnode | hnode := of_decide_eq_true hnode
    · exact ⟨.output, l.source.path, by rw [end?, hget, ← hnode]; rfl⟩
    · exact ⟨.input, l.sink.path, by rw [end?, hget, ← hnode]; rfl⟩
  · intro hx
    obtain ⟨d, path, hend⟩ := hx
    obtain ⟨l, hl, hend⟩ := Option.map_eq_some_iff.mp hend
    refine Entries.mem_keys_of_mem (a := l) (List.mem_filter.mpr ⟨Entries.mem_of_get? hl, ?_⟩)
    have hnode : (l.endAt d).node = .gate id := by rw [hend]
    cases d with
    | output => exact decide_eq_true (.inl hnode)
    | input => exact decide_eq_true (.inr hnode)

theorem Wired.mem_allLinks_iff (h : c.Wired) {id : GateId} {g : Gate} (hg : c.gate? id = some g)
    {x : LinkId} : x ∈ g.input.allLinks ++ g.output.allLinks ↔ x ∈ c.linksOf id := by
  have hport : ∀ d, x ∈ (g.port d).allLinks ↔ ∃ path, c.end? d x = some ⟨.gate id, path⟩ := by
    intro d
    have hp : c.port? d (.gate id) = some (g.port d) := by rw [port?, hg]; rfl
    rw [Port.mem_allLinks]
    exact exists_congr fun path => h.mem_linksAt_iff hp
  rw [h.mem_linksOf, List.mem_append]
  constructor
  · intro hx
    obtain hx | hx := hx
    · exact ⟨.input, (hport .input).mp hx⟩
    · exact ⟨.output, (hport .output).mp hx⟩
  · intro hx
    obtain ⟨d, hx⟩ := hx
    cases d with
    | output => exact .inr ((hport .output).mpr hx)
    | input => exact .inl ((hport .input).mpr hx)

theorem Wired.removeGate_eq_without (h : c.Wired) {id : GateId} {g : Gate}
    (hg : c.gate? id = some g) : c.removeGate id =
      ((c.without (c.linksOf id)).withoutGate id, .ok (g.without (c.linksOf id))) := by
  have hlinks : c.deleteLinks (g.input.allLinks ++ g.output.allLinks) = c.without (c.linksOf id) :=
    (h.deleteLinks_eq_without _).trans (without_congr (fun x => h.mem_allLinks_iff hg) c)
  simp only [Circuit.removeGate, hg, hlinks, gate?_without, Option.map_some, Option.elim_some]
  rfl

theorem Wired.unlinked_without (h : c.Wired) {id : GateId} {g : Gate} (hg : c.gate? id = some g) :
    (g.without (c.linksOf id)).Unlinked := by
  intro d path
  have hp : c.port? d (.gate id) = some (g.port d) := by rw [port?, hg]; rfl
  rw [Gate.port_without, Port.linksAt_without, List.filter_eq_nil_iff]
  intro x hx
  have hmem := h.mem_linksOf.mpr ⟨d, path, (h.mem_linksAt_iff hp).mp hx⟩
  simpa using hmem

end Circuit

namespace Gate
variable {face : Face} {c : Circuit Gate}

theorem Reachable.without (h : (Gate.circuit face c).Reachable) (ids : List LinkId) :
    (Gate.circuit face (c.without ids)).Reachable := by
  obtain ⟨-, -, hc⟩ := sound_circuit_iff.mp h.sound
  have hedits : c.edited (ids.map .deleteLink) = c.without ids := by
    rw [← hc.wired.deleteLinks_eq_without]
    exact List.foldl_map
  rw [← hedits]
  exact h.edited (by simp)

end Gate

/-- Taking away a link strikes it from the table and from the two places where it is attached; if
there is none, nothing changes. Taking away a gate strikes the links that begin or end there, then
takes the gate, to which nothing is attached any more and which may come in again as a new one. -/
theorem removal_takes_exactly {face : Face} {c : Circuit Gate}
    (hc : (Gate.circuit face c).Reachable) :
    (∀ id, id ∈ c.links.ids →
      c.takeLink id = (c.without [id], true) ∧
      (c.without [id]).takeLink id = (c.without [id], false)) ∧
    (∀ id, id ∉ c.links.ids → c.takeLink id = (c, false)) ∧
    (∀ id l, c.links.get? id = some l → ∀ d n p path, c.port? d n = some p →
      (id ∈ p.linksAt path ↔ l.endAt d = ⟨n, path⟩)) ∧
    (∀ id g, c.gate? id = some g → ∃ c' g', c.removeGate id = (c', .ok g') ∧
      c' = (c.without (c.linksOf id)).withoutGate id ∧
      g' = g.without (c.linksOf id) ∧ g'.Unlinked ∧
      (Gate.circuit face (c'.add g')).Reachable ∧
      (c'.add g').links = c'.links ∧ (c'.add g').gates = c'.gates ++ [(c'.nextGate, g')]) ∧
    ∀ id, id ∉ c.gateIds → c.removeGate id = (c, .error (.gateNotFound id)) := by
  obtain ⟨-, -, hs⟩ := Gate.sound_circuit_iff.mp hc.sound
  have hw := hs.wired
  have hdead : ∀ {c : Circuit Gate} {id}, id ∉ c.links.ids → c.takeLink id = (c, false) := by
    intro c id hid
    have hl : c.links.get? id = none := Entries.get?_eq_none_iff.mpr hid
    simp only [Circuit.takeLink, hl]
  refine ⟨fun id hid => ⟨?_, hdead ?_⟩, fun id hid => hdead hid, ?_, ?_, ?_⟩
  · obtain ⟨l, hl⟩ := Entries.mem_keys_iff.mp hid
    have hl : c.links.get? id = some l := hl
    simp only [Circuit.takeLink, hl, hw.deleteLink_eq_without]
  · intro hid
    obtain ⟨e, he, heq⟩ := List.mem_map.mp hid
    have hgone := (List.mem_filter.mp he).2
    simp [heq] at hgone
  · intro id l hl d n p path hp
    rw [hw.mem_linksAt_iff hp, Circuit.end?, hl]
    exact Option.some_inj
  · intro id g hg
    have hwithout := hc.without (c.linksOf id)
    have hfree := hw.unlinked_without hg
    have hremoved := hw.removeGate_eq_without hg
    refine ⟨_, _, hremoved, rfl, rfl, hfree, ?_, rfl, ?_⟩
    · have hgone : (Gate.circuit face ((c.without (c.linksOf id)).withoutGate id)).Reachable := by
        have hstep : (Gate.circuit face (c.edited [.removeGate id])).Reachable :=
          hc.edited (by simp)
        have hrun : c.edited [.removeGate id] = (c.removeGate id).1 := rfl
        rwa [hrun, hremoved] at hstep
      have hg' : (g.without (c.linksOf id)).Reachable :=
        hwithout.inside (by rw [Circuit.gate?_without, hg]; rfl)
      have hadd : ∀ a, Edit.add a ∈ [Edit.add (g.without (c.linksOf id))] →
          a.Reachable ∧ a.Unlinked := by
        intro a ha
        cases List.mem_singleton.mp ha
        exact ⟨hg', hfree⟩
      exact hgone.edited hadd
    · have hgone := hw.removeGate id
      rw [hremoved] at hgone
      exact hgone.gates_add _
  · intro id hid
    have hg : c.gate? id = none := Entries.get?_eq_none_iff.mpr hid
    simp only [Circuit.removeGate, hg]

/-- The inverter between the others goes, and two links with it; the one that feeds itself has its
link taken away at both of its ports. -/
theorem removal_takes_exactly_chain :
    let face := Face.new "chain" ⟨default, default⟩
    (Gate.circuit face .chain).Reachable ∧ Circuit.chain.links.ids = [0, 1, 2] ∧
    (∃ c' g', Circuit.chain.removeGate 1 = (c', .ok g') ∧ c'.gateIds = [0, 2] ∧
      c'.links.entries = Circuit.chain.links.entries.drop 2 ∧ g'.Unlinked ∧
      (Gate.circuit face (c'.add g')).Reachable) ∧
    (∃ c' g', Circuit.chain.removeGate 2 = (c', .ok g') ∧
      c'.links.entries = Circuit.chain.links.entries.take 2 ∧ g'.Unlinked) ∧
    ∃ c', Circuit.chain.takeLink 0 = (c', true) ∧ c'.takeLink 0 = (c', false) ∧
      c'.links.entries = Circuit.chain.links.entries.drop 1 := by
  intro face
  have hids : Circuit.chain.links.ids = [0, 1, 2] := by decide
  obtain ⟨htaken, -, -, hremoved, -⟩ := removal_takes_exactly Gate.reachable_chain
  refine ⟨Gate.reachable_chain, hids, ?_, ?_, ?_⟩
  · obtain ⟨c', g', hr, rfl, rfl, hfree, hadded, -⟩ := hremoved 1 _ rfl
    exact ⟨_, _, hr, by decide, by decide, hfree, hadded⟩
  · obtain ⟨c', g', hr, rfl, rfl, hfree, -⟩ := hremoved 2 _ rfl
    exact ⟨_, _, hr, by decide, hfree⟩
  · obtain ⟨hfirst, hagain⟩ := htaken 0 (by rw [hids]; decide)
    exact ⟨_, hfirst, hagain, by decide⟩

end TickCircuit
