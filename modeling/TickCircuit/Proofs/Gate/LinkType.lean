import TickCircuit.Proofs.Gate.Build
import TickCircuit.Proofs.Gate.Rollback
import TickCircuit.Proofs.Port.Retyping
/-!
Types of links once the boundary is resolved. A boundary port has its type from one link, so that
links which share the port with it may no longer fit. Main statement: a link has a type just when
the types of its two ends can be merged, where an end at the boundary has the type that is declared
there, merged with the one that the deciding link brings (`linkType_built`).
-/
namespace TickCircuit

def Direction.opposite : Direction → Direction
  | .input => .output
  | .output => .input

/-- What is declared for the boundary port that is of direction `d` seen from inside. -/
def Io.side (io : Io) : Direction → Interface
  | .output => io.input
  | .input => io.output

namespace Circuit
variable {c c' : Circuit Gate}

/-- The type at the end of a link that is not of direction `d`; the boundary has none of its own. -/
def farType? (c : Circuit Gate) (d : Direction) (l : Link) : Option Interface :=
  if (l.endAt d.opposite).node = .boundary then some default
  else c.typeAt? d.opposite (l.endAt d.opposite)

/-- The type that the wiring implies for the boundary port at a path: what its deciding link has at
the far end. -/
def wiredType? (c : Circuit Gate) (d : Direction) (path : Path) : Option Interface := do
  let p ← c.port? d .boundary
  let (id, rest) ← p.decider? path
  let l ← c.links.get? id
  let t ← c.farType? d l
  t.childAt? rest

/-- The type that is given to the boundary port at a path: what is declared there, merged with what
the wiring implies. -/
def givenType? (c : Circuit Gate) (io : Io) (d : Direction) (path : Path) : Option Interface := do
  let declared ← (io.side d).childAt? path
  let wired ← c.wiredType? d path
  (declared.merge wired).toOption

theorem givenType?_eq_some {io : Io} {d : Direction} {path : Path} {t : Interface} :
    c.givenType? io d path = some t ↔ ∃ declared wired, (io.side d).childAt? path = some declared ∧
      c.wiredType? d path = some wired ∧ declared.merge wired = .ok t := by
  simp only [givenType?, Option.bind_eq_bind, Option.bind_eq_some_iff]
  constructor
  · rintro ⟨a, ha, b, hb, hm⟩
    cases hmerge : a.merge b with
    | error e => simp [hmerge, Except.toOption] at hm
    | ok m =>
      rw [hmerge] at hm
      cases hm
      exact ⟨a, b, ha, hb, hmerge⟩
  · rintro ⟨a, b, ha, hb, hm⟩
    exact ⟨a, ha, b, hb, by rw [hm]; rfl⟩

/-- The type that a link meets at its end of direction `d`: that of the leaf of a gate, and at the
boundary the one that is given there. -/
def endType? (c : Circuit Gate) (io : Io) (d : Direction) (l : Link) : Option Interface :=
  if (l.endAt d).node = .boundary then c.givenType? io d (l.endAt d).path
  else c.typeAt? d (l.endAt d)

end Circuit

namespace Gate

/-- The circuits that are made in one go, each with the interfaces declared for it: from a template,
or by an insertion into a new circuit, for which nothing is declared. -/
inductive Built : Gate → Io → Prop where
  | template {registry : Registry} {expanding : List String} {typeName : String}
    {template : Template} {g : Gate} (found : registry.templates.get? typeName = some template)
    (made : ofTemplateWithin registry expanding typeName = .ok g) : Built g template.io
  | inserted {name : String} {registry : Registry} {d : Description} {offset : Position} {g : Gate}
    {ids : Entries String GateId}
    (made : (ofCircuit name (.empty registry)).insert d offset = (g, .ok ids)) :
    Built g ⟨default, default⟩

end Gate

namespace Circuit
variable {c c' : Circuit Gate}

/-- A circuit before its boundary is resolved. Its links fit, and its boundary takes anything. -/
structure Unresolved (c : Circuit Gate) : Prop where
  sound : c.Sound
  fits : ∀ {id l}, c.links.get? id = some l → c.Fits l
  boundary : ∀ {d p}, c.port? d .boundary = some p → p.interface.isAny

theorem unresolved_insert {make : String → Except Fault Gate} (hmake : MakesSound make)
    {registry : Registry} {d : Description} {offset : Position} {made : Insertion}
    (h : (Circuit.empty registry).insert make d offset = (c, .ok made)) : c.Unresolved := by
  have hempty := sound_empty registry
  obtain ⟨c₀, made₀, specs, ls, hg, -, hj⟩ := (insert_eq_ok hmake hempty).mp ⟨made, h⟩
  have hs := hempty.insertGates hmake offset d.gates
  obtain ⟨hlinks, -⟩ := insertGates_keeps make offset (.empty registry)
    ⟨[], [], .new .output default, .new .input default⟩ d.gates
  have hg' : insertGates make offset (.empty registry)
      ⟨[], [], .new .output default, .new .input default⟩ d.gates = (c₀, made₀, .ok ()) := hg
  rw [hg'] at hlinks
  rw [hg] at hs
  refine ⟨hj.sound hs, fun {id l} hl => ?_, fun {d p} hp => ?_⟩
  · refine hj.fits hs.wired l ?_
    have hmem := Entries.mem_of_get? hl
    rw [(hj.links hs.wired).1, hlinks] at hmem
    obtain ⟨e, he, hswap⟩ := List.mem_map.mp hmem
    cases hswap
    exact List.mem_of_getElem? (List.mem_zipIdx_iff_getElem?.mp he)
  · have hi := interface?_insert hmake hempty h d
    rw [interface?, hp] at hi
    have hany : p.interface = default := by cases d <;> exact Option.some.inj hi
    rw [hany]
    rfl

theorem Wired.leaf_end (h : c.Wired) {id : LinkId} {l : Link} (hl : c.links.get? id = some l)
    (d : Direction) : ∃ p q, c.port? d (l.endAt d).node = some p ∧
      p.sub? (l.endAt d).path = some q ∧ c.typeAt? d (l.endAt d) = some q.interface := by
  obtain ⟨p, q, hp, hq, -⟩ := h.held hl d
  refine ⟨p, q, hp, hq, ?_⟩
  rw [typeAt?, interface?, hp]
  exact (h.shaped hp).childAt hq

theorem Wired.linkType_eq (h : c.Wired) {id : LinkId} {l : Link} (hl : c.links.get? id = some l)
    {s t : Interface} (hs : c.typeAt? .output l.source = some s)
    (ht : c.typeAt? .input l.sink = some t) : c.linkType id = (s.merge t).mapError .type := by
  obtain ⟨p, q, hp, hq, hsource⟩ := h.leaf_end hl .output
  obtain ⟨p', q', hp', hq', hsink⟩ := h.leaf_end hl .input
  simp only [Link.endAt] at hp hq hsource hp' hq' hsink
  cases hs.symm.trans hsource
  cases ht.symm.trans hsink
  simp [linkType, bind, Except.bind, hl, source_eq_ok.mpr hp, sink_eq_ok.mpr hp', leafAt, hq, hq']

/-- What a link's type is goes by the types of its ends, whose labels do not matter. -/
theorem Wired.linkType_of_ends (h : c.Wired) {id : LinkId} {l : Link}
    (hl : c.links.get? id = some l) {s t i j : Interface}
    (hi : c.typeAt? .output l.source = some i) (hj : c.typeAt? .input l.sink = some j)
    (hsi : s.sameShape i) (htj : t.sameShape j) :
    (∀ m, s.merge t = .ok m → ∃ m', c.linkType id = .ok m' ∧ m.sameShape m') ∧
    ∀ e, s.merge t = .error e → ∃ k k', c.linkType id = .error (.type (.irreconcilable k k')) := by
  have htype := h.linkType_eq hl hi hj
  refine ⟨fun m hm => ?_, fun e he => ?_⟩
  · obtain ⟨m', hm', hmm⟩ := Interface.merge_of_sameShape hsi htj hm
    exact ⟨m', by rw [htype, hm']; rfl, hmm⟩
  · cases hm : i.merge j with
    | ok m =>
      obtain ⟨m', hm', -⟩ := Interface.merge_of_sameShape (Interface.sameShape_symm hsi)
        (Interface.sameShape_symm htj) hm
      cases he.symm.trans hm'
    | error e' =>
      obtain ⟨k, k', rfl⟩ := Interface.irreconcilable_of_merge hm
      exact ⟨k, k', by rw [htype, hm]; rfl⟩

theorem Wired.typeAt?_end (h : c.Wired) {id : LinkId} {l : Link} (hl : c.links.get? id = some l)
    (d : Direction) : ∃ i, c.typeAt? d (l.endAt d) = some i := by
  obtain ⟨-, q, -, -, hq⟩ := h.leaf_end hl d
  exact ⟨q.interface, hq⟩

theorem Unresolved.typeAt?_boundary (h : c.Unresolved) {d : Direction} {path : Path}
    {i : Interface} (hi : c.typeAt? d ⟨.boundary, path⟩ = some i) : i.isAny := by
  obtain ⟨j, hj, hi⟩ := Option.bind_eq_some_iff.mp hi
  obtain ⟨p, hp, rfl⟩ := Option.map_eq_some_iff.mp hj
  obtain ⟨k, hk, hany⟩ := Interface.childAt?_isAny (h.boundary hp) path
  rw [hk] at hi
  cases hi
  exact hany

/-- A link at the boundary has, but for labels, the type at its far end. -/
theorem Unresolved.linkType_far (h : c.Unresolved) {id : LinkId} {l : Link}
    (hl : c.links.get? id = some l) {d : Direction} {path : Path}
    (here : l.endAt d = ⟨.boundary, path⟩) :
    ∃ t u, c.linkType id = .ok t ∧ c.farType? d l = some u ∧ t.sameShape u := by
  have hw := h.sound.wired
  obtain ⟨i, hi⟩ := hw.typeAt?_end hl d
  obtain ⟨j, hj⟩ := hw.typeAt?_end hl d.opposite
  have hany : i.isAny := h.typeAt?_boundary (here ▸ hi)
  have hfar : ∃ u, c.farType? d l = some u ∧ j.sameShape u := by
    rw [farType?]
    split
    next hb =>
      have hat : c.typeAt? d.opposite ⟨.boundary, (l.endAt d.opposite).path⟩ = some j := by
        rw [← hj, ← hb]
      have hjany : j.isAny := h.typeAt?_boundary hat
      exact ⟨default, rfl, Interface.sameShape_of_isAny hjany rfl⟩
    next => exact ⟨j, hj, Interface.sameShape_refl j⟩
  obtain ⟨u, hu, hju⟩ := hfar
  cases d with
  | output =>
    refine ⟨j, u, ?_, hu, hju⟩
    rw [hw.linkType_eq hl hi hj, Interface.merge_of_isAny hany]
    rfl
  | input =>
    obtain ⟨m, hm, hshape⟩ := Interface.merge_isAny j hany
    refine ⟨m, u, ?_, hu, ?_⟩
    · rw [hw.linkType_eq hl hj hi, hm]
      rfl
    · exact Interface.sameShape_trans hshape hju

/-- The type that is inferred for a boundary port is, but for labels, the one that the wiring
implies. -/
theorem Unresolved.wiredType?_inferred (h : c.Unresolved) {d : Direction} {p : Port}
    (hp : c.port? d .boundary = some p) {t : Interface} (ht : p.inferred c.linkType = .ok t)
    {path rest : Path} {id : LinkId} (hd : p.decider? path = some (id, rest)) {i : Interface}
    (hi : t.childAt? path = some i) : ∃ j, c.wiredType? d path = some j ∧ i.sameShape j := by
  have hw := h.sound.wired
  obtain ⟨above, -, hid⟩ := deciding_mem hd
  have hend := (hw.mem_linksAt_iff hp).mp hid
  obtain ⟨l, hl, here⟩ := Option.map_eq_some_iff.mp hend
  obtain ⟨brought, far, hb, hfar, hsame⟩ := h.linkType_far hl here
  obtain ⟨brought', hb', hchild⟩ := Port.inferred_childAt (hw.shaped hp) (h.boundary hp) ht hd
  cases hb.symm.trans hb'
  obtain ⟨j, hj, hij⟩ := Interface.childAt?_sameShape hsame (hchild ▸ hi)
  exact ⟨j, by simp [wiredType?, hp, hd, hl, hfar, hj], hij⟩

theorem typeAt?_of_gates (h : c'.gates = c.gates) (d : Direction) {e : Endpoint}
    (he : e.node ≠ .boundary) : c'.typeAt? d e = c.typeAt? d e := by
  obtain ⟨n, path⟩ := e
  cases n with
  | gate id => simp only [typeAt?, interface?, port?, gate?, h]
  | boundary => exact absurd rfl he
  | host => cases d <;> rfl

/-- The boundary of `c'` has been given types, those that the wiring of `c` implies, which leave no
link of its ports without a place, together with those that are declared. -/
structure Resolves (c : Circuit Gate) (io : Io) (c' : Circuit Gate) : Prop where
  gates : c'.gates = c.gates
  links : c'.links = c.links
  boundary : ∀ {d p}, c.port? d .boundary = some p → ∃ q t, c'.port? d .boundary = some q ∧
    p.inferred c.linkType = .ok t ∧ p.checkRetype t = .ok () ∧
    (io.side d).merge t = .ok q.interface ∧ ∀ path, q.linksAt path = p.linksAt path

namespace Resolves
variable {io : Io}

theorem retyped {c₀ : Circuit Gate} (gates : c'.gates = c₀.gates) (links : c'.links = c₀.links)
    {input output : Interface} (hi : c₀.innerInput.inferred c₀.linkType = .ok input)
    (ho : c₀.innerOutput.inferred c₀.linkType = .ok output)
    (hci : c₀.innerInput.checkRetype input = .ok ())
    (hco : c₀.innerOutput.checkRetype output = .ok ())
    (hmi : io.input.merge input = .ok c'.innerInput.interface)
    (hmo : io.output.merge output = .ok c'.innerOutput.interface)
    (hai : ∀ path, c'.innerInput.linksAt path = c₀.innerInput.linksAt path)
    (hao : ∀ path, c'.innerOutput.linksAt path = c₀.innerOutput.linksAt path) :
    c₀.Resolves io c' := by
  refine ⟨gates, links, fun {d p} hp => ?_⟩
  cases d with
  | output =>
    cases hp
    exact ⟨_, input, rfl, hi, hci, hmi, hai⟩
  | input =>
    cases hp
    exact ⟨_, output, rfl, ho, hco, hmo, hao⟩

theorem typeAt? (h : c.Resolves io c') (d : Direction) {e : Endpoint} (he : e.node ≠ .boundary) :
    c'.typeAt? d e = c.typeAt? d e :=
  typeAt?_of_gates h.gates d he

theorem farType? (h : c.Resolves io c') (d : Direction) (l : Link) :
    c'.farType? d l = c.farType? d l := by
  rw [Circuit.farType?, Circuit.farType?]
  split
  · rfl
  next hn => exact h.typeAt? d.opposite hn

theorem wiredType? (h : c.Resolves io c') (d : Direction) (path : Path) :
    c'.wiredType? d path = c.wiredType? d path := by
  obtain ⟨p, hp⟩ : ∃ p, c.port? d .boundary = some p := (port?_isSome c d .boundary).mpr (.inl rfl)
  obtain ⟨q, t, hq, -, -, -, hat⟩ := h.boundary hp
  have hlinks : q.linksAt = p.linksAt := funext hat
  simp only [Circuit.wiredType?, hp, hq, Port.decider?, hlinks, h.links, h.farType?,
    Option.bind_eq_bind, Option.bind_some]

/-- Where a link is, the wiring implies a type, and the boundary port has the type that is given to
it. -/
theorem givenType? (h : c.Resolves io c') (hc : c.Unresolved) (hw : c'.Wired) {id : LinkId}
    {l : Link} (hl : c'.links.get? id = some l) {d : Direction} {path : Path}
    (here : l.endAt d = ⟨.boundary, path⟩) :
    ∃ t i, c'.givenType? io d path = some t ∧ c'.typeAt? d (l.endAt d) = some i ∧
      t.sameShape i := by
  obtain ⟨q, leaf, hq, hleaf, hi⟩ := hw.leaf_end hl d
  rw [here] at hq hleaf
  obtain ⟨p, hp⟩ : ∃ p, c.port? d .boundary = some p := (port?_isSome c d .boundary).mpr (.inl rfl)
  obtain ⟨q', w, hq', hinferred, htakes, hmerge, -⟩ := h.boundary hp
  cases hq.symm.trans hq'
  have hlinked : id ∈ p.linksAt path := by
    refine (hc.sound.wired.mem_linksAt_iff hp).mpr ?_
    rw [end?, ← h.links, hl, Option.map_some, here]
  obtain ⟨k, rest, hd⟩ := Port.decider?_of_mem hlinked
  obtain ⟨b, hb⟩ := Port.childAt?_of_checkRetype htakes hlinked
  obtain ⟨b', hwired, hbb⟩ := hc.wiredType?_inferred hp hinferred hd hb
  obtain ⟨a, n, ha, hn, hni⟩ :=
    Interface.merge_childAt hmerge hb ((hw.shaped hq).childAt hleaf)
  obtain ⟨n', hn', hnn⟩ := Interface.merge_of_sameShape (Interface.sameShape_refl a) hbb hn
  refine ⟨n', leaf.interface, ?_, hi, Interface.sameShape_trans (Interface.sameShape_symm hnn) hni⟩
  exact givenType?_eq_some.mpr ⟨a, b', ha, (h.wiredType? d path).trans hwired, hn'⟩

theorem endType? (h : c.Resolves io c') (hc : c.Unresolved) (hw : c'.Wired) {id : LinkId}
    {l : Link} (hl : c'.links.get? id = some l) (d : Direction) :
    ∃ t i, c'.endType? io d l = some t ∧ c'.typeAt? d (l.endAt d) = some i ∧ t.sameShape i := by
  by_cases hn : (l.endAt d).node = .boundary
  · have here : l.endAt d = ⟨.boundary, (l.endAt d).path⟩ := by rw [← hn]
    obtain ⟨t, i, ht, hi, hti⟩ := h.givenType? hc hw hl here
    exact ⟨t, i, by rw [Circuit.endType?, if_pos hn, ht], hi, hti⟩
  · obtain ⟨i, hi⟩ := hw.typeAt?_end hl d
    exact ⟨i, i, by rw [Circuit.endType?, if_neg hn, hi], hi, Interface.sameShape_refl i⟩

theorem linkType_inside (h : c.Resolves io c') (hc : c.Unresolved) (hw : c'.Wired) {id : LinkId}
    {l : Link} (hl : c'.links.get? id = some l) (gates : ∀ d, (l.endAt d).node ≠ .boundary) :
    ∃ t, c'.linkType id = .ok t := by
  obtain ⟨hsource, t, hsink, hadmits⟩ := hc.fits (h.links ▸ hl)
  have hsource' := (h.typeAt? .output (gates .output)).trans hsource
  have hsink' := (h.typeAt? .input (gates .input)).trans hsink
  obtain ⟨m, hm⟩ := (Interface.agree_of_admits hadmits).symm.merge
  exact ⟨m, by rw [hw.linkType_eq hl hsource' hsink', hm]; rfl⟩

end Resolves
end Circuit

namespace Gate

theorem resolved_types {face : Face} {c : Circuit Gate} {g : Gate}
    (h : (Gate.circuit face c).resolve = (g, .ok ())) :
    ∃ input output, c.innerInput.inferred c.linkType = .ok input ∧
      c.innerOutput.inferred c.linkType = .ok output ∧
      (Gate.circuit face c).setBoundary input output = (g, .ok ()) := by
  obtain ⟨input, output, hb, hw⟩ := resolve_iff.mp h
  obtain ⟨i, hi, hb⟩ := bind_eq_ok.mp hb
  obtain ⟨o, ho, hb⟩ := bind_eq_ok.mp hb
  cases hb
  exact ⟨input, output, hi, ho, hw⟩

theorem resolves_resolve {face face' : Face} {c c' : Circuit Gate}
    (h : (Gate.circuit face c).resolve = (.circuit face' c', .ok ())) :
    c.Resolves ⟨default, default⟩ c' := by
  obtain ⟨input, output, hi, ho, hb⟩ := resolved_types h
  obtain ⟨-, hci, -, hco, he⟩ := setBoundary_eq_ok.mp hb
  cases he
  refine .retyped rfl rfl hi ho hci hco ?_ ?_ (Port.linksAt_retyped hci) (Port.linksAt_retyped hco)
  · rw [Port.interface_retyped]
    exact Interface.merge_of_isAny rfl input
  · rw [Port.interface_retyped]
    exact Interface.merge_of_isAny rfl output

theorem resolves_close {typeName : String} {io : Io} {face : Face} {c c' : Circuit Gate}
    (h : close typeName io c = .ok (.circuit face c')) : c.Resolves io c' := by
  obtain ⟨g, i, o, hr, hmi, hmo, h⟩ := close_eq_ok.mp h
  obtain ⟨input, output, hi, ho, hb⟩ := resolved_types hr
  obtain ⟨-, hci, -, hco, rfl⟩ := setBoundary_eq_ok.mp hb
  simp only [Gate.input, Gate.output, Gate.face, Port.interface_retyped] at hmi hmo
  obtain ⟨-, hci', -, hco', he⟩ := setBoundary_eq_ok.mp h
  cases he
  refine .retyped rfl rfl hi ho hci hco ?_ ?_ (fun path => ?_) fun path => ?_
  · rw [Port.interface_retyped]
    exact hmi
  · rw [Port.interface_retyped]
    exact hmo
  · rw [Port.linksAt_retyped hci', Port.linksAt_retyped hci]
  · rw [Port.linksAt_retyped hco', Port.linksAt_retyped hco]

theorem circuit_ofTemplateWithin {registry : Registry} {expanding : List String}
    {typeName : String} {template : Template} {face : Face} {c : Circuit Gate}
    (found : registry.templates.get? typeName = some template)
    (h : ofTemplateWithin registry expanding typeName = .ok (.circuit face c)) :
    ∃ d c₁ made, (Circuit.empty registry).insert
        (ofTemplateWithin registry (expanding ++ [typeName])) d .zero = (c₁, .ok made) ∧
      close typeName template.io c₁ = .ok (.circuit face c) := by
  unfold ofTemplateWithin at h
  split at h
  · cases h
  next template' ht =>
    rw [found] at ht
    cases ht
    split at h
    · cases h
    · cases h
    next d _ =>
      split at h
      · cases h
      · dsimp only at h
        split at h
        · cases h
        next c₁ made hi => exact ⟨d, c₁, made, hi, h⟩

/-- A circuit that was made in one go is one whose boundary has been resolved. -/
theorem Built.resolves {face : Face} {c : Circuit Gate} {io : Io}
    (h : (Gate.circuit face c).Built io) :
    ∃ c₁ : Circuit Gate, c₁.Unresolved ∧ c₁.Resolves io c ∧ c.Wired := by
  have hwired : (Gate.circuit face c).Sound → c.Wired := fun hs =>
    (sound_circuit_iff.mp hs).2.2.wired
  generalize hg : Gate.circuit face c = g at h hwired
  cases h with
  | template found made =>
    have hs := (makesSound_ofTemplateWithin _ _ _ _ made).1
    subst hg
    obtain ⟨d, c₁, _, hi, hclose⟩ := circuit_ofTemplateWithin found made
    have hmake := makesSound_ofTemplateWithin
    exact ⟨c₁, Circuit.unresolved_insert (hmake _ _) hi, resolves_close hclose, hwired hs⟩
  | @inserted name registry d offset _ ids made =>
    have hs := (Reachable.circuit name registry).sound.insert d offset
    rw [made] at hs
    subst hg
    obtain ⟨c₁, _, hi, hr⟩ := insert_eq_ok.mp ⟨_, made⟩
    have hmake := makesSound_ofTemplate registry
    exact ⟨c₁, Circuit.unresolved_insert hmake hi, resolves_resolve hr, hwired hs.1⟩

end Gate

/-- What is given to a boundary port agrees with what its deciding link brings. -/
theorem Circuit.agree_of_decider {c : Circuit Gate} {io : Io} {id : LinkId} {l : Link}
    (hl : c.links.get? id = some l) {d : Direction} {path : Path} {p : Port} {t u : Interface}
    (hp : c.port? d .boundary = some p) (hd : p.decider? path = some (id, []))
    (far : c.farType? d l = some u) (given : c.givenType? io d path = some t) : t.Agree u := by
  have hwired : c.wiredType? d path = some u := by
    simp [wiredType?, hp, hd, hl, far, Interface.childAt?]
  obtain ⟨a, b, -, hb, hm⟩ := givenType?_eq_some.mp given
  cases hwired.symm.trans hb
  exact (Interface.merged_of_merge hm).agree.2

/-- In a circuit that was made in one go both ends of a link have a type, and that of the link is,
but for labels, the merge of the two; where they cannot be merged the link has none. So links that
join two gates have a type, and links from a gate that decide their boundary port. -/
theorem linkType_built {face : Face} {c : Circuit Gate} {io : Io}
    (hg : (Gate.circuit face c).Built io) {id : LinkId} {l : Link}
    (hl : c.links.get? id = some l) :
    (∃ s t, c.endType? io .output l = some s ∧ c.endType? io .input l = some t ∧
      (∀ m, s.merge t = .ok m → ∃ m', c.linkType id = .ok m' ∧ m.sameShape m') ∧
      ∀ e, s.merge t = .error e →
        ∃ i j, c.linkType id = .error (.type (.irreconcilable i j))) ∧
    ((∀ d, (l.endAt d).node ≠ .boundary) → ∃ m, c.linkType id = .ok m) ∧
    ∀ d path p, l.endAt d = ⟨.boundary, path⟩ → (l.endAt d.opposite).node ≠ .boundary →
      c.port? d .boundary = some p → p.decider? path = some (id, []) →
      ∃ m, c.linkType id = .ok m := by
  obtain ⟨c₁, hc, hr, hw⟩ := hg.resolves
  obtain ⟨s, i, hs, hi, hsi⟩ := hr.endType? hc hw hl .output
  obtain ⟨t, j, ht, hj, htj⟩ := hr.endType? hc hw hl .input
  obtain ⟨hmerges, hfails⟩ := hw.linkType_of_ends hl hi hj hsi htj
  refine ⟨⟨s, t, hs, ht, hmerges, hfails⟩, hr.linkType_inside hc hw hl,
    fun d path p here there hp hd => ?_⟩
  have hagree : ∀ u v, c.endType? io d l = some u → c.endType? io d.opposite l = some v →
      u.Agree v := by
    intro u v hu hv
    rw [Circuit.endType?, here, if_pos rfl] at hu
    rw [Circuit.endType?, if_neg there] at hv
    exact Circuit.agree_of_decider hl hp hd (by rw [Circuit.farType?, if_neg there, hv]) hu
  have hmerge : ∃ m, s.merge t = .ok m := by
    cases d with
    | output => exact (hagree s t hs ht).merge
    | input => exact (hagree t s ht hs).symm.merge
  obtain ⟨m, hm⟩ := hmerge
  obtain ⟨m', hm', -⟩ := hmerges m hm
  exact ⟨m', hm'⟩

def Registry.fan : Registry :=
  (Registry.empty.insert "one" (.ofTransform ⟨.bit none, .bit none⟩ "not")).insert "two"
    (.ofTransform ⟨.collection none [.bit none, .bit none], .bit none⟩ "and")

def Description.fan : Description :=
  ⟨[⟨"a", "one", none⟩, ⟨"b", "two", none⟩], ["outside=>a", "outside=>b"]⟩

def Gate.fan (typeName transform : String) (input : Port) (links : List LinkId) : Gate :=
  .function ⟨typeName, Position.zero.add .zero, typeName, { input with links },
    .new .output (.bit none), none⟩ transform (Registry.fan.transform? transform)

def Circuit.fan (input output : Interface) : Circuit Gate where
  gates := [
    (0, .fan "one" "not" (.new .input (.bit none)) [0]),
    (1, .fan "two" "and" (.new .input (.collection none [.bit none, .bit none])) [1])]
  links := ⟨[
    (0, .seeded ⟨.boundary, []⟩ ⟨.gate 0, []⟩ default none),
    (1, .seeded ⟨.boundary, []⟩ ⟨.gate 1, []⟩ default none)], 2⟩
  innerInput := ⟨.output, input, [0, 1], []⟩
  innerOutput := ⟨.input, output, [], []⟩
  registry := .fan
  nextGate := 2

theorem insert_fan : ∃ face ids, (Gate.ofCircuit "scratch" (.empty .fan)).insert .fan .zero =
    (.circuit face (.fan (.bit none) (.none none)), .ok ids) := by
  have hone := Gate.ofTemplate_transform .fan "one" rfl rfl
  have htwo := Gate.ofTemplate_transform .fan "two" rfl rfl
  -- evaluated in three steps, for a state is met many times in the next one
  have hgates : (Circuit.empty .fan).insertGates (Gate.ofTemplate .fan) .zero
      ⟨[], [], .new .output default, .new .input default⟩ Description.fan.gates =
      (⟨[(0, .fan "one" "not" (.new .input (.bit none)) []),
          (1, .fan "two" "and" (.new .input (.collection none [.bit none, .bit none])) [])],
        .empty, .new .output default, .new .input default, .fan, 2⟩,
        ⟨[("a", 0), ("b", 1)], [], .new .output default, .new .input default⟩, .ok ()) := by
    simp only [Description.fan, Circuit.insertGates, hone, htwo]
    rfl
  have hspecs : Description.fan.specs = .ok [⟨⟨.outside, []⟩, ⟨.gate "a", []⟩, none⟩,
      ⟨⟨.outside, []⟩, ⟨.gate "b", []⟩, none⟩] := rfl
  have hinsert : (Circuit.empty .fan).insert (Gate.ofTemplate .fan) .fan .zero =
      (.fan default default,
        .ok ⟨[("a", 0), ("b", 1)], [0, 1], .new .output default, .new .input default⟩) := by
    simp only [Circuit.insert, Circuit.insertParts, hspecs]
    simp only [Circuit.empty] at hgates ⊢
    rw [hgates]
    rfl
  refine ⟨{ Face.new "scratch" ⟨default, default⟩ with
      input := .new .input (.bit none), output := .new .output (.none none) },
    [("a", 0), ("b", 1)], ?_⟩
  simp only [Circuit.empty] at hinsert
  simp only [Gate.ofCircuit, Gate.insert, Circuit.empty, hinsert]
  rfl

/-- The first link decides the type of the boundary port, which the second could not have. -/
theorem linkType_built_fan : ∃ face ids,
    (Gate.ofCircuit "scratch" (.empty .fan)).insert .fan .zero =
      (.circuit face (.fan (.bit none) (.none none)), .ok ids) ∧
    (∃ t, (Circuit.fan (.bit none) (.none none)).linkType 0 = .ok t) ∧
    ∃ i j, (Circuit.fan (.bit none) (.none none)).linkType 1 =
      .error (.type (.irreconcilable i j)) := by
  obtain ⟨face, ids, h⟩ := insert_fan
  have hfirst : (Circuit.fan (.bit none) (.none none)).links.get? 0 =
      some (.seeded ⟨.boundary, []⟩ ⟨.gate 0, []⟩ default none) := rfl
  have hsecond : (Circuit.fan (.bit none) (.none none)).links.get? 1 =
      some (.seeded ⟨.boundary, []⟩ ⟨.gate 1, []⟩ default none) := rfl
  obtain ⟨-, -, hdeciding⟩ := linkType_built (.inserted h) hfirst
  obtain ⟨⟨s, t, hs, ht, -, hfails⟩, -⟩ := linkType_built (.inserted h) hsecond
  have hgiven : (Circuit.fan (.bit none) (.none none)).endType? ⟨default, default⟩ .output
      (.seeded ⟨.boundary, []⟩ ⟨.gate 1, []⟩ default none) = some (.bit none) := rfl
  have hleaf : (Circuit.fan (.bit none) (.none none)).endType? ⟨default, default⟩ .input
      (.seeded ⟨.boundary, []⟩ ⟨.gate 1, []⟩ default none) =
      some (.collection none [.bit none, .bit none]) := rfl
  cases hs.symm.trans hgiven
  cases ht.symm.trans hleaf
  exact ⟨face, ids, h, hdeciding .output [] _ rfl nofun rfl rfl, hfails _ rfl⟩

/-- The second link, which was made all the same, can no longer be read. -/
theorem linkType_fan : ∃ face ids, (Gate.ofCircuit "scratch" (.empty .fan)).insert .fan .zero =
      (.circuit face (.fan (.bit none) (.none none)), .ok ids) ∧
    (Circuit.fan (.bit none) (.none none)).links.has 1 = true ∧
    (Circuit.fan (.bit none) (.none none)).linkType 1 =
      .error (.type (.irreconcilable (.bit none) (.collection none [.bit none, .bit none]))) := by
  obtain ⟨face, ids, h⟩ := insert_fan
  exact ⟨face, ids, h, rfl, rfl⟩

end TickCircuit
