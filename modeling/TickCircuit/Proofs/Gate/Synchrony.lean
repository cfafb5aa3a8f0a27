import TickCircuit.Proofs.Gate.Consistent
/-!
A tick as one synchronous step. Main statement: a tick makes of a circuit what `ticked` says, each
gate updated once against the links as they stood, in whichever order the gates are visited
(`tick_synchronous`).
-/
namespace TickCircuit
namespace LinkTable

theorem nextId_writeEach (t : LinkTable) (ws : List (LinkId × Value)) :
    (t.writeEach ws).nextId = t.nextId := by
  induction ws generalizing t with
  | nil => rfl
  | cons w ws ih => exact ih (t.write w.1 w.2)

theorem ids_stale (t : LinkTable) : t.stale.ids = t.ids := by
  simp [ids, Entries.keys, stale, Function.comp_def]

def Single (ws : List (LinkId × Value)) : Prop := ∀ id v w, (id, v) ∈ ws → (id, w) ∈ ws → v = w

/-- Where no link is written with two values, the order of the writes does not matter. -/
theorem writeEach_congr {t : LinkTable} (hn : t.ids.Nodup) {us ws : List (LinkId × Value)}
    (hmem : ∀ x, x ∈ us ↔ x ∈ ws) (hone : Single ws) : t.writeEach us = t.writeEach ws := by
  refine LinkTable.ext ?_ ((nextId_writeEach t us).trans (nextId_writeEach t ws).symm)
  · rw [entries_writeEach hn, entries_writeEach hn]
    refine List.map_congr_left fun e _ => ?_
    have hw : written us e.1 e.2.current = written ws e.1 e.2.current := by
      obtain ⟨he, hu⟩ | ⟨v, hv, he⟩ := written_cases us e.1 e.2.current
      · obtain ⟨he', -⟩ | ⟨w, hw, -⟩ := written_cases ws e.1 e.2.current
        · rw [he, he']
        · exact absurd ((hmem _).mpr hw) (hu w)
      · obtain ⟨-, hw⟩ | ⟨w, hw, he'⟩ := written_cases ws e.1 e.2.current
        · exact absurd ((hmem _).mp hv) (hw v)
        · rw [he, he', hone _ _ _ ((hmem _).mp hv) hw]
    simp only [hw]

theorem Single.mono {us ws : List (LinkId × Value)} (h : Single ws) (hsub : ∀ x ∈ us, x ∈ ws) :
    Single us := fun id v w hv hw => h id v w (hsub _ hv) (hsub _ hw)

end LinkTable

/-- In which order gates are visited: as they are listed, at every depth, or in an order of its own
with a schedule for the inside of each. -/
inductive Schedule where
  | listed
  | mk (order : List GateId) (inner : GateId → Schedule)

namespace Gate

def visitAll (visit : GateId → LinkTable → Gate → Gate × LinkTable) :
    List GateId → List (GateId × Gate) → LinkTable → List (GateId × Gate) × LinkTable
  | [], gates, links => (gates, links)
  | id :: order, gates, links =>
    match Entries.get? id gates with
    | none => visitAll visit order gates links
    | some g =>
      let (g, links) := visit id links g
      visitAll visit order (Entries.modify id (fun _ => g) gates) links

def updateBy : Schedule → LinkTable → Gate → Gate × LinkTable
  | .listed, outer, g => g.update outer
  | .mk .., outer, .function face name t => (Gate.function face name t).update outer
  | .mk order inner, outer, .circuit face c =>
    match c.pushed face outer with
    | (links, .error e) => (.circuit (withFault face (.error e)) { c with links }, outer)
    | (links, .ok ()) =>
      let (gates, links) := visitAll (fun id => updateBy (inner id)) order c.gates links
      let c := { c with gates, links := links.updateAll }
      let (outer, result) := c.pulled face outer
      (.circuit (withFault face result) c, outer)

end Gate

/-- A schedule visits every gate of a circuit once, at every depth. -/
def Schedule.Covers : Schedule → Gate → Prop
  | .listed, _ => True
  | .mk .., .function .. => True
  | .mk order inner, .circuit _ c =>
    order.Perm c.gateIds ∧ ∀ id g, c.gate? id = some g → (inner id).Covers g

namespace Gate

def writesBy (order : List GateId) (gates : List (GateId × Gate)) (t : LinkTable) :
    List (LinkId × Value) :=
  order.flatMap fun id => (Entries.get? id gates).elim [] (·.writes t)

theorem writesBy_modify {order : List GateId} {id : GateId} (hid : id ∉ order)
    {t u : LinkTable} (hs : u.stale = t.stale) (gates : List (GateId × Gate)) (a : Gate) :
    writesBy order (Entries.modify id (fun _ => a) gates) u = writesBy order gates t := by
  rw [writesBy, writesBy, List.flatMap_def, List.flatMap_def]
  refine congrArg List.flatten (List.map_congr_left fun j hj => ?_)
  have hne : id ≠ j := fun he => hid (he ▸ hj)
  rw [Entries.get?_modify, if_neg hne]
  cases Entries.get? j gates with
  | none => rfl
  | some b => exact writes_congr hs b

theorem map_update_modify {gates : List (GateId × Gate)} (hkeys : (Entries.keys gates).Nodup)
    {order : List GateId} {id : GateId} (hid : id ∉ order) {g : Gate}
    (hg : Entries.get? id gates = some g)
    (hshape : ∀ j ∈ order, ∀ a, Entries.get? j gates = some a → a.PortsShaped)
    {t u : LinkTable} (hs : u.stale = t.stale) :
    ((Entries.modify id (fun _ => (g.update t).1) gates).map fun (j, a) =>
        (j, if j ∈ order then (a.update u).1 else a)) =
      gates.map fun (j, a) => (j, if j ∈ id :: order then (a.update t).1 else a) := by
  rw [Entries.modify_eq_map hkeys, List.map_map]
  refine List.map_congr_left fun e he => ?_
  obtain ⟨j, a⟩ := e
  have ha := Entries.get?_of_mem hkeys he
  by_cases hj : j = id
  · subst hj
    rw [hg] at ha
    cases ha
    simp [hid]
  · by_cases hjo : j ∈ order
    · simp [hj, hjo, update_fst_congr (hshape j hjo a ha) hs]
    · simp [hj, hjo]

/-- Gates that are visited all see the table as it was at first, and each is updated once. -/
theorem visitAll_eq (visit : GateId → LinkTable → Gate → Gate × LinkTable) {order : List GateId}
    {gates : List (GateId × Gate)} (horder : order.Nodup) (hkeys : (Entries.keys gates).Nodup)
    (hvisit : ∀ id ∈ order, ∃ g, Entries.get? id gates = some g ∧ g.PortsShaped ∧
      ∀ t, visit id t g = g.update t) (t : LinkTable) :
    visitAll visit order gates t =
      (gates.map fun (id, g) => (id, if id ∈ order then (g.update t).1 else g),
        t.writeEach (writesBy order gates t)) := by
  induction order generalizing gates t with
  | nil => simp [visitAll, writesBy, LinkTable.writeEach]
  | cons id order ih =>
    obtain ⟨hid, horder⟩ := List.nodup_cons.mp horder
    obtain ⟨g, hg, hshape, hup⟩ := hvisit id List.mem_cons_self
    have hsnd := update_snd hshape t
    have hs : (g.update t).2.stale = t.stale := by rw [hsnd, LinkTable.stale_writeEach]
    have hshapes : ∀ j ∈ order, ∀ a, Entries.get? j gates = some a → a.PortsShaped := by
      intro j hj a ha
      obtain ⟨b, hb, hbs, -⟩ := hvisit j (List.mem_cons_of_mem _ hj)
      rw [ha] at hb
      cases hb
      exact hbs
    have hrest := @ih (Entries.modify id (fun _ => (g.update t).1) gates) horder
      (by rwa [Entries.keys_modify]) (fun j hj => by
        have hne : id ≠ j := fun he => hid (he ▸ hj)
        rw [Entries.get?_modify, if_neg hne]
        exact hvisit j (List.mem_cons_of_mem _ hj)) (g.update t).2
    have hgates := map_update_modify hkeys hid hg hshapes hs
    have hwrites := writesBy_modify hid hs gates (g.update t).1
    rw [visitAll, hg]
    dsimp only
    rw [hup, hrest, hwrites, hgates]
    simp only [writesBy, List.flatMap_cons, hg, Option.elim_some, LinkTable.writeEach_append, hsnd]

end Gate

namespace Circuit

/-- The value that a node gives out in a tick, if it gives out any. -/
def emitted (c : Circuit Gate) (face : Face) (outer : LinkTable) : Node → Option Value
  | .boundary => c.intake face outer
  | .gate id => (c.gate? id).bind (·.emission c.links)
  | .host => none

/-- What a link carries after a tick: its part of what its source gives out, if there is one. -/
def settled (c : Circuit Gate) (face : Face) (outer : LinkTable) (l : Link) : Link :=
  let v := ((c.emitted face outer l.source.node).bind (·.sub? l.source.path)).or l.current
  { l with current := v, last := v }

/-- The circuit after a tick. Every gate has been updated once, against the links as they stood. -/
def ticked (c : Circuit Gate) (face : Face) (outer : LinkTable) : Circuit Gate :=
  { c with
    gates := c.gates.map fun (id, g) => (id, (g.update c.links).1)
    links := { c.links with
      entries := c.links.entries.map fun (id, l) => (id, c.settled face outer l) } }

/-- Whether the outer input can be taken in: it can be read, and the inner input accepts it. -/
def TakesIn (c : Circuit Gate) (face : Face) (outer : LinkTable) : Prop :=
  c.innerInput.interface.isNone ∨ ∃ v, face.input.read outer = .ok v ∧
    ∀ w, v = some w → c.innerInput.interface.accepts w

def allWrites (c : Circuit Gate) (face : Face) (outer : LinkTable) : List (LinkId × Value) :=
  (c.intake face outer).elim [] c.innerInput.delivery ++
    c.gates.flatMap fun (_, g) => g.writes c.links

variable {c : Circuit Gate}

theorem pushed_cases (hp : c.innerInput.Shaped .output) (face : Face) (outer : LinkTable) :
    (c.TakesIn face outer ∧ ∃ links, c.pushed face outer = (links, .ok ())) ∨
      ¬c.TakesIn face outer ∧ ∃ e, c.pushed face outer = (c.links, .error e) := by
  unfold pushed TakesIn
  cases hn : c.innerInput.interface.isNone with
  | true => exact .inl ⟨.inl rfl, c.links, rfl⟩
  | false =>
    cases hr : face.input.read outer with
    | error e => exact .inr ⟨by simp, e, rfl⟩
    | ok v =>
      cases v with
      | none => exact .inl ⟨.inr ⟨none, rfl, by simp⟩, c.links, rfl⟩
      | some v =>
        cases ha : c.innerInput.interface.accepts v with
        | true =>
          refine .inl ⟨.inr ⟨some v, rfl, fun w hw => ?_⟩, ?_⟩
          · cases hw
            exact ha
          · simp [Gate.pass, Port.write_eq hp ha]
        | false =>
          refine .inr ⟨?_, ?_⟩
          · simp [ha]
          · simp [Gate.pass, Port.write_eq_of_not_accepts hp ha]

theorem Wired.mem_delivery (h : c.Wired) {n : Node} {p : Port} (hp : c.port? .output n = some p)
    {o : Option Value} {id : LinkId} {w : Value} : (id, w) ∈ o.elim [] p.delivery ↔
      ∃ path v, o = some v ∧ c.end? .output id = some ⟨n, path⟩ ∧ v.sub? path = some w := by
  cases o with
  | none => simp
  | some v =>
    rw [Option.elim_some, Port.mem_delivery]
    constructor
    · intro hx
      obtain ⟨path, hid, hw⟩ := hx
      exact ⟨path, v, rfl, (h.mem_linksAt_iff hp).mp hid, hw⟩
    · intro hx
      obtain ⟨path, v, hv, hend, hw⟩ := hx
      cases hv
      exact ⟨path, (h.mem_linksAt_iff hp).mpr hend, hw⟩

/-- A link is written with the part of what its source gives out that is at its path. -/
theorem Wired.mem_allWrites (h : c.Wired) (face : Face) (outer : LinkTable) {id : LinkId}
    {w : Value} : (id, w) ∈ c.allWrites face outer ↔
      ∃ e v, c.end? .output id = some e ∧ c.emitted face outer e.node = some v ∧
        v.sub? e.path = some w := by
  have hinput : c.port? .output .boundary = some c.innerInput := rfl
  have hgate : ∀ {gid g}, c.gate? gid = some g → c.port? .output (.gate gid) = some g.output := by
    intro gid g hg
    rw [port?, hg]
    rfl
  rw [allWrites, List.mem_append, h.mem_delivery hinput, List.mem_flatMap]
  constructor
  · intro hx
    obtain ⟨path, v, hv, hend, hw⟩ | ⟨⟨gid, g⟩, hg, hw⟩ := hx
    · exact ⟨_, v, hend, hv, hw⟩
    · have hg := Entries.get?_of_mem h.gates_nodup hg
      obtain ⟨path, v, hv, hend, hw⟩ := (h.mem_delivery (hgate hg)).mp hw
      refine ⟨_, v, hend, ?_, hw⟩
      rw [emitted, gate?, hg]
      exact hv
  · intro hx
    obtain ⟨⟨n, path⟩, v, hend, hv, hw⟩ := hx
    cases n with
    | gate gid =>
      obtain ⟨g, hg, hv⟩ := Option.bind_eq_some_iff.mp hv
      refine .inr ⟨(gid, g), Entries.mem_of_get? hg, ?_⟩
      exact (h.mem_delivery (hgate hg)).mpr ⟨path, v, hv, hend, hw⟩
    | boundary => exact .inl ⟨path, v, hv, hend, hw⟩
    | host => cases hv

theorem Wired.single_allWrites (h : c.Wired) (face : Face) (outer : LinkTable) :
    LinkTable.Single (c.allWrites face outer) := by
  intro id v w hv hw
  obtain ⟨e, x, he, hx, hv⟩ := (h.mem_allWrites face outer).mp hv
  obtain ⟨e', x', he', hx', hw⟩ := (h.mem_allWrites face outer).mp hw
  rw [he] at he'
  cases he'
  rw [hx] at hx'
  cases hx'
  exact Option.some.inj (hv.symm.trans hw)

theorem Wired.updateAll_allWrites (h : c.Wired) (face : Face) (outer : LinkTable) :
    (c.links.writeEach (c.allWrites face outer)).updateAll = (c.ticked face outer).links := by
  refine LinkTable.ext ?_ (LinkTable.nextId_writeEach c.links (c.allWrites face outer))
  · rw [LinkTable.updateAll, LinkTable.entries_writeEach h.links_nodup, ticked, List.map_map]
    refine List.map_congr_left fun e he => ?_
    obtain ⟨id, l⟩ := e
    have hl := Entries.get?_of_mem h.links_nodup he
    have hend : c.end? .output id = some l.source := by
      rw [end?, LinkTable.get?, hl]
      rfl
    have hmem : ∀ w, (id, w) ∈ c.allWrites face outer ↔
        (c.emitted face outer l.source.node).bind (·.sub? l.source.path) = some w := by
      intro w
      rw [h.mem_allWrites, Option.bind_eq_some_iff]
      simp [hend]
    have hw := LinkTable.written_eq hmem l.current
    simp only [Function.comp, Link.update, settled, hw]

theorem Sound.advanced_eq (h : c.Sound) {face : Face} {outer links : LinkTable}
    {r : Except Fault Unit} (hp : c.pushed face outer = (links, r)) :
    c.advanced links = c.ticked face outer := by
  have hinput := h.wired.innerInput
  have hlinks : links =
      c.links.writeEach ((c.intake face outer).elim [] c.innerInput.delivery) := by
    rw [← Gate.pushed_fst hinput, hp]
  have hstale : links.stale = c.links.stale := by rw [hlinks, LinkTable.stale_writeEach]
  have hupdate := Gate.updateAll_eq h.shaped_gates links
  have hgates : (c.gates.map fun (id, g) => (id, (g.update links).1)) =
      c.gates.map fun (id, g) => (id, (g.update c.links).1) :=
    List.map_congr_left fun e he => by
      have hg := Gate.update_fst_congr (h.shaped_gates e he) hstale
      simp only [hg]
  have hwrites : (c.gates.flatMap fun (_, g) => g.writes links) =
      c.gates.flatMap fun (_, g) => g.writes c.links := by
    congr 1
    funext e
    have hg := Gate.writes_congr hstale e.2
    simp only [hg]
  have htable := h.wired.updateAll_allWrites face outer
  rw [allWrites, LinkTable.writeEach_append, ← hlinks, ← hwrites] at htable
  rw [Circuit.advanced, hupdate, hgates]
  dsimp only
  rw [htable]
  rfl

end Circuit

namespace Gate

theorem mem_writesBy {c : Circuit Gate} (hc : c.Wired) {order : List GateId}
    (hperm : order.Perm c.gateIds) (t : LinkTable) (x : LinkId × Value) :
    x ∈ writesBy order c.gates t ↔ x ∈ c.gates.flatMap fun (_, g) => g.writes t := by
  rw [writesBy, List.mem_flatMap, List.mem_flatMap]
  constructor
  · intro h
    obtain ⟨id, -, hx⟩ := h
    cases hg : Entries.get? id c.gates with
    | none => simp [hg] at hx
    | some g =>
      rw [hg] at hx
      exact ⟨(id, g), Entries.mem_of_get? hg, hx⟩
  · intro h
    obtain ⟨⟨id, g⟩, hg, hx⟩ := h
    have hid : id ∈ order := hperm.mem_iff.mpr (Entries.mem_keys_of_mem hg)
    have hget := Entries.get?_of_mem hc.gates_nodup hg
    exact ⟨id, hid, by rwa [hget]⟩

/-- The order of the visits to the gates of a circuit does not matter. -/
theorem updateBy_circuit {c : Circuit Gate} (hc : c.Sound) (face : Face) (outer : LinkTable)
    {order : List GateId} {inner : GateId → Schedule} (hperm : order.Perm c.gateIds)
    (hinner : ∀ id g, c.gate? id = some g → ∀ t, updateBy (inner id) t g = g.update t) :
    (Gate.circuit face c).updateBy (.mk order inner) outer =
      (Gate.circuit face c).update outer := by
  match hp : c.pushed face outer with
  | (links, .error e) =>
    rw [update_circuit_of_error hp, updateBy, hp]
    rfl
  | (links, .ok ()) =>
    have hstale : links.stale = c.links.stale := by
      rw [← stale_pushed hc.wired.innerInput face outer, hp]
    have hids : links.ids.Nodup := by
      rw [← LinkTable.ids_stale, hstale, LinkTable.ids_stale]
      exact hc.wired.links_nodup
    have hvisit := visitAll_eq (fun id => updateBy (inner id))
      (hperm.nodup_iff.mpr hc.wired.gates_nodup) hc.wired.gates_nodup (fun id hid => by
        obtain ⟨g, hg⟩ := Entries.mem_keys_iff.mp (hperm.mem_iff.mp hid)
        exact ⟨g, hg, (hc.children hg).shaped, hinner id g hg⟩) links
    have hgates : (c.gates.map fun (id, g) => (id, if id ∈ order then (g.update links).1 else g)) =
        c.gates.map fun (id, g) => (id, (g.update links).1) :=
      List.map_congr_left fun e he => by
        have hid : e.1 ∈ order := hperm.mem_iff.mpr (Entries.mem_keys_of_mem he)
        simp [hid]
    have hmem := mem_writesBy hc.wired hperm links
    have hsingle : LinkTable.Single (c.gates.flatMap fun (_, g) => g.writes links) := by
      refine (hc.wired.single_allWrites face outer).mono fun x hx => List.mem_append_right _ ?_
      obtain ⟨⟨id, g⟩, he, hx⟩ := List.mem_flatMap.mp hx
      have hg := writes_congr hstale g
      dsimp only at hx
      rw [hg] at hx
      exact List.mem_flatMap.mpr ⟨(id, g), he, hx⟩
    rw [update_circuit_of_ok hp, updateBy, hp]
    dsimp only
    rw [hvisit, hgates, LinkTable.writeEach_congr hids hmem hsingle, Circuit.advanced,
      updateAll_eq hc.shaped_gates]

theorem Sound.updateBy_eq {g : Gate} (h : g.Sound) {s : Schedule} (hs : s.Covers g)
    (outer : LinkTable) : g.updateBy s outer = g.update outer := by
  induction h generalizing s outer with
  | function => cases s <;> rfl
  | @circuit face c shaped matched wired children ih =>
    cases s with
    | listed => rfl
    | mk order inner =>
      obtain ⟨hperm, hinner⟩ := hs
      have hc : c.Sound := ⟨wired, fun {id g} => children id g⟩
      exact updateBy_circuit hc face outer hperm fun id g hg t => ih id g hg (hinner id g hg) t

theorem accepts_of_emission {g : Gate} {t : LinkTable} {v : Value} (h : g.emission t = some v) :
    g.output.interface.accepts v := by
  have haccepted : ∀ {face : Face} {o : Option (Option Value)}, o.bind face.accepted = some v →
      face.output.interface.accepts v := by
    intro face o ho
    obtain ⟨w, -, hw⟩ := Option.bind_eq_some_iff.mp ho
    exact (Option.filter_eq_some_iff.mp hw).2
  cases g with
  | function face name transform =>
    simp only [emission] at h
    split at h
    · exact haccepted h
    · cases h
  | circuit face c =>
    simp only [emission] at h
    split at h
    · exact haccepted h
    · cases h

theorem update_snd_write {g : Gate} (hg : g.PortsShaped) (t : LinkTable) :
    (g.update t).2 = (g.emission t).elim t fun v => (g.output.write v t).1 := by
  rw [update_snd hg, writes]
  cases he : g.emission t with
  | none => rfl
  | some v =>
    have hw := Port.write_eq (hg .output) (accepts_of_emission he) t
    exact (congrArg Prod.fst hw).symm

end Gate

/-- The outer input is a port of the type of the inner one, as that of every reachable circuit. -/
def Face.Feeds (face : Face) (c : Circuit Gate) : Prop :=
  face.input.Shaped .input ∧ face.input.interface = c.innerInput.interface

theorem Face.Feeds.takesIn_iff {face : Face} {c : Circuit Gate} (h : face.Feeds c)
    (outer : LinkTable) : c.TakesIn face outer ↔
      c.innerInput.interface.isNone ∨ ∃ v, face.input.read outer = .ok v := by
  refine or_congr_right ⟨fun ⟨v, hv, _⟩ => ⟨v, hv⟩, fun ⟨v, hv⟩ => ⟨v, hv, fun w hw => ?_⟩⟩
  rw [← h.2]
  exact Port.accepts_of_read h.1 (hw ▸ hv)

/-- A tick is one synchronous step. If the outer input cannot be taken in, nothing inside changes;
else every gate is updated once against the links as they stood, every link carries on what its
source gave out, and neither depends on the order in which gates are visited. -/
theorem tick_synchronous {own : Face} {c : Circuit Gate} (hg : (Gate.circuit own c).Reachable)
    (face : Face) (outer : LinkTable) :
    own.Feeds c ∧
    (face.Feeds c → (c.TakesIn face outer ↔
      c.innerInput.interface.isNone ∨ ∃ v, face.input.read outer = .ok v)) ∧
    (¬c.TakesIn face outer → ∃ e,
      (Gate.circuit face c).update outer = (.circuit { face with fault := some e } c, outer)) ∧
    (c.TakesIn face outer → (Gate.circuit face c).update outer =
      (.circuit (Gate.withFault face ((c.ticked face outer).pulled face outer).2)
        (c.ticked face outer), ((c.ticked face outer).pulled face outer).1)) ∧
    (∀ id g, c.gate? id = some g → ∀ t, t.stale = c.links.stale →
      (g.update t).1 = (g.update c.links).1 ∧
      (g.update t).2 = (g.emission c.links).elim t fun v => (g.output.write v t).1) ∧
    ∀ s : Schedule, s.Covers (.circuit face c) →
      (Gate.circuit face c).updateBy s outer = (Gate.circuit face c).update outer := by
  obtain ⟨hs, hm, hc⟩ := Gate.sound_circuit_iff.mp hg.sound
  have hpushed := Circuit.pushed_cases hc.wired.innerInput face outer
  refine ⟨⟨hs .input, hm.input⟩, fun hf => hf.takesIn_iff outer, fun hno => ?_, fun hyes => ?_,
    fun id g hid t ht => ?_, fun s hcover => ?_⟩
  · obtain ⟨hyes, -⟩ | ⟨-, e, hp⟩ := hpushed
    · exact absurd hyes hno
    · exact ⟨e, Gate.update_circuit_of_error hp⟩
  · obtain ⟨-, links, hp⟩ | ⟨hno, -⟩ := hpushed
    · rw [Gate.update_circuit_of_ok hp, hc.advanced_eq hp]
    · exact absurd hyes hno
  · have hshape := (hc.children hid).shaped
    refine ⟨Gate.update_fst_congr hshape ht, ?_⟩
    rw [Gate.update_snd_write hshape, Gate.emission_congr ht]
  · cases s with
    | listed => rfl
    | mk order inner =>
      obtain ⟨hperm, hinner⟩ := hcover
      refine Gate.updateBy_circuit hc face outer hperm fun id g hid t => ?_
      exact (hc.children hid).updateBy_eq (hinner id g hid) t

/-- The two inverters take in a one. Visited in the other order they come out the same, and each
works on what its link carried before: both give out a one. -/
theorem tick_synchronous_series : ∃ own c g,
    (Gate.fed .series).at? [0] = some (.circuit own c) ∧ own.Feeds c ∧
    own.input.read (Circuit.fed .series).links = .ok (some .high) ∧
    (Gate.circuit own c).update (Circuit.fed .series).links =
      (.circuit own (c.ticked own (Circuit.fed .series).links), (Circuit.fed .series).links) ∧
    c.links.entries.map (·.2.last) = [some .low, some .low, some .low] ∧
    (c.ticked own (Circuit.fed .series).links).links.entries.map (·.2.last) =
      [some .high, some .high, some .high] ∧
    c.gate? 1 = some g ∧ (∀ t, t.stale = c.links.stale →
      (g.update t).1 = (g.update c.links).1 ∧ (g.update t).2 = (g.output.write .high t).1) ∧
    (Gate.circuit own c).updateBy (.mk [1, 0] fun _ => .listed) (Circuit.fed .series).links =
      (Gate.circuit own c).update (Circuit.fed .series).links := by
  have hreachable : (Gate.circuit _ _).Reachable :=
    @Gate.Reachable.inside _ _ (Gate.reachable_fed Gate.series_usable) 0 _ rfl
  obtain ⟨hfeeds, htakes, -, hticks, hvisits, horder⟩ :=
    tick_synchronous hreachable _ (Circuit.fed .series).links
  refine ⟨_, _, _, rfl, hfeeds, rfl, ?_, rfl, rfl, rfl, ?_, ?_⟩
  · exact hticks ((htakes hfeeds).mpr (.inr ⟨_, rfl⟩))
  · exact hvisits 1 _ rfl
  · exact horder _ ⟨.swap 0 1 [], fun _ _ _ => trivial⟩

def Circuit.clock : Circuit Gate :=
  (Circuit.empty .empty).edited
    [.add .inverter, .connect ⟨.gate 0, []⟩ ⟨.gate 0, []⟩ (some .low)]

def Gate.clock : Gate := (Gate.ofCircuit "clock" .clock).resolve.1

theorem Gate.clock_usable : clock.Reachable ∧ clock.Unlinked := by
  have hedited : (Gate.ofCircuit "clock" .clock).Reachable :=
    reachable_of_inverters "clock" .empty fun a ha => by simpa using ha
  refine ⟨hedited.step [] .resolve nofun nofun, fun d path => ?_⟩
  cases d <;> cases path <;> rfl

/-- To read the outer input is not to take it in. A clock takes nothing in, and goes on where its
outer input, at which there is a one, cannot be read. And where an outer port reads what the inner
input does not accept, no gate is updated, though the first inverter has a one to give out. -/
theorem takesIn_not_read :
    (∃ own c own' c' e, (Gate.circuit own c).Reachable ∧
      (Gate.fed .clock).at? [0] = some (.circuit own c) ∧
      own.input.read (Circuit.fed .clock).links = .error e ∧
      ((Gate.circuit own c).update (Circuit.fed .clock).links).1 = .circuit own' c' ∧
      c.links.entries.map (·.2.last) = [some .low] ∧
      c'.links.entries.map (·.2.last) = [some .high]) ∧
    ∃ own c g face outer v e, (Gate.circuit own c).Reachable ∧
      (Gate.fed .series).at? [0] = some (.circuit own c) ∧
      face.input.read outer = .ok (some v) ∧
      (Gate.circuit face c).update outer = (.circuit { face with fault := some e } c, outer) ∧
      c.gate? 0 = some g ∧ g.emission c.links = some .high ∧
      c.links.entries.map (·.2.last) = [some .low, some .low, some .low] := by
  have hclock := @Gate.Reachable.inside _ _ (Gate.reachable_fed Gate.clock_usable) 0 _ rfl
  have hseries := @Gate.Reachable.inside _ _ (Gate.reachable_fed Gate.series_usable) 0 _ rfl
  refine ⟨⟨_, _, _, _, _, hclock, rfl, rfl, rfl, rfl, rfl⟩, ?_⟩
  exact ⟨_, _, _, { Face.new "pair" ⟨default, default⟩ with input := ⟨.input, default, [0], []⟩ },
    ⟨[(0, .seeded ⟨.host, []⟩ ⟨.gate 0, []⟩ default (some (.collection none [.low])))], 1⟩,
    .collection none [.low], _, hseries, rfl, rfl, rfl, rfl, rfl, rfl⟩

end TickCircuit
