import TickCircuit.Proofs.Gate.Template
import TickCircuit.Proofs.Port.Types
/-!
What a successful insertion amounts to: gates are added, and then links are joined one after the
other (`insert_eq_ok`). Main statements: no type of a port changes on the way
(`Joined.interface?`), and each link fits where it is joined (`Joined.fits`).
-/
namespace TickCircuit
namespace Circuit
variable {c c' : Circuit Gate}

theorem bindSink_of_leaf (hc : c.Shaped) {end_ : LinkEnd} {p : Port} {leaf : Leaf}
    {data : Interface} (hp : c.port? .input end_.node = some p)
    (hr : p.resolve end_.path = .ok leaf) (hl : Port.checkLeaf .input leaf data = .ok ())
    (id : LinkId) : c.bindSink id data end_ =
      (c.mapPort (fun p => (p.attach leaf.path id).1) .input end_.node, .ok leaf.path) := by
  have hd : p.direction = .input := (hc hp).fits.direction
  obtain ⟨hok, -⟩ := Port.attach_resolved (hc hp) hr id
  simp only [bindSink, sink_eq_ok.mpr hp, Port.connect, hr, hd, hl, hok, Prod.mk.injEq]
  refine ⟨?_, rfl⟩
  refine mapPort_congr (d := .input) fun q hq => ?_
  rw [hp] at hq
  cases hq
  rfl

theorem connect_of_joins (hc : c.Shaped) {start end_ : LinkEnd} {literal : Option Value} {l : Link}
    (hj : Joins c start end_ literal l) :
    c.connect start end_ literal = (c.withLink l, .ok c.links.nextId) := by
  obtain ⟨p, leaf, hp, hr, hs, hd⟩ := hj.source
  obtain ⟨q, goal, hq, hg, hk, hl⟩ := hj.sink
  have hlink : l = .seeded ⟨start.node, leaf.path⟩ ⟨end_.node, goal.path⟩ leaf.interface literal := by
    have hcurrent := hj.current
    have hlast := hj.last
    cases l
    simp_all [Link.seeded]
  have hliteral : checkLiteral leaf.interface literal = .ok () :=
    checkLiteral_eq_ok.mpr fun v hv => hd ▸ hj.accepts v hv
  rw [hd] at hl
  have hr' : c.reserved.Shaped := hc.withLinks
  have hp' : c.reserved.port? .output start.node = some p := by rw [reserved, port?_withLinks, hp]
  have hq' : c.reserved.port? .input end_.node = some q := by rw [reserved, port?_withLinks, hq]
  have hsink := bindSink_of_leaf hr' hq' hg hl c.links.nextId
  have hsource := bindSource_of_bound hr' hp' hr hq' hg c.links.nextId
  rw [reserved] at hsink hsource
  simp only [connect, source_eq_ok.mpr hp, bind, Except.bind, hr, hliteral, hsink, hsource, hlink]
  rfl

/-- The links of some specifications, each made after the ones before it. -/
inductive Joined (made : Insertion) :
    Circuit Gate → List LinkSpec → List Link → Circuit Gate → Prop where
  | nil (c : Circuit Gate) : Joined made c [] [] c
  | cons {c c' : Circuit Gate} {spec : LinkSpec} {specs : List LinkSpec} {l : Link}
    {ls : List Link} {start end_ : LinkEnd} (source : linkEnd made spec.source = .ok start)
    (sink : linkEnd made spec.sink = .ok end_) (joins : Joins c start end_ spec.literal l)
    (rest : Joined made (c.withLink l) specs ls c') : Joined made c (spec :: specs) (l :: ls) c'

theorem insertLinks_eq_ok (hc : c.Wired) {made : Insertion} {specs : List LinkSpec} :
    (∃ made', c.insertLinks made specs = (c', made', .ok ())) ↔
      ∃ ls, Joined made c specs ls c' := by
  -- only the gates on record say where an end is
  suffices hgates : ∀ made' : Insertion, made'.gates = made.gates →
      ((∃ made'', c.insertLinks made' specs = (c', made'', .ok ())) ↔
        ∃ ls, Joined made c specs ls c') from hgates made rfl
  induction specs generalizing c with
  | nil =>
    intro made' _
    constructor
    · intro h
      obtain ⟨made'', h⟩ := h
      cases h
      exact ⟨[], .nil _⟩
    · intro h
      obtain ⟨ls, h⟩ := h
      cases h
      exact ⟨made', rfl⟩
  | cons spec specs ih =>
    intro made' hmade
    have hends : ∀ e, linkEnd made' e = linkEnd made e := fun e => by rw [linkEnd, linkEnd, hmade]
    rw [insertLinks, insertLink, hends, hends]
    constructor
    · intro h
      obtain ⟨made'', h⟩ := h
      cases hs : linkEnd made spec.source with
      | error e =>
        rw [hs] at h
        cases h
      | ok start =>
        cases he : linkEnd made spec.sink with
        | error e =>
          rw [hs, he] at h
          cases h
        | ok end_ =>
          rw [hs, he] at h
          dsimp only at h
          obtain ⟨e, hk⟩ | ⟨e, hk⟩ | ⟨l, hj, hk⟩ := connect_cases hc.shaped start end_ spec.literal
          · rw [hk] at h
            cases h
          · rw [hk] at h
            cases h
          · rw [hk] at h
            have hrest := ih (hc.withLink hj)
              { made' with links := made'.links ++ [c.links.nextId] } hmade
            obtain ⟨ls, hrest⟩ := hrest.mp ⟨made'', h⟩
            exact ⟨l :: ls, .cons hs he hj hrest⟩
    · intro h
      obtain ⟨ls, h⟩ := h
      cases h with
      | cons hs he hj hrest =>
        rw [hs, he]
        dsimp only
        rw [connect_of_joins hc.shaped hj]
        have hinsert := ih (hc.withLink hj)
          { made' with links := made'.links ++ [c.links.nextId] } hmade
        exact hinsert.mpr ⟨_, hrest⟩

def interface? (c : Circuit Gate) (d : Direction) (n : Node) : Option Interface :=
  (c.port? d n).map (·.interface)

def typeAt? (c : Circuit Gate) (d : Direction) (e : Endpoint) : Option Interface :=
  c.interface? d e.node >>= (·.childAt? e.path)

theorem Wired.interface?_withLink (h : c.Wired) {start end_ : LinkEnd} {literal : Option Value}
    {l : Link} (hj : Joins c start end_ literal l) (d : Direction) (n : Node) :
    (c.withLink l).interface? d n = c.interface? d n := by
  rw [interface?, interface?]
  cases hp : (c.withLink l).port? d n with
  | none =>
    rw [port?_withLink, Option.map_eq_none_iff] at hp
    rw [hp]
  | some p =>
    obtain ⟨q, hq, -, hi, -⟩ := h.port_withLink hj hp
    rw [hq, Option.map_some, Option.map_some, hi]

def Fits (c : Circuit Gate) (l : Link) : Prop :=
  c.typeAt? .output l.source = some l.data ∧
    ∃ t, c.typeAt? .input l.sink = some t ∧ t.admits l.data = true

theorem Joins.fits (h : c.Wired) {start end_ : LinkEnd} {literal : Option Value} {l : Link}
    (hj : Joins c start end_ literal l) : c.Fits l := by
  obtain ⟨p, leaf, hp, hr, hs, hd⟩ := hj.source
  obtain ⟨q, goal, hq, hg, hk, hl⟩ := hj.sink
  have hsource := (h.shaped hp).childAt_resolved hr
  have hsink := (h.shaped hq).childAt_resolved hg
  refine ⟨?_, goal.interface, ?_, ?_⟩
  · simp [typeAt?, interface?, hs, hp, hd, hsource]
  · simp [typeAt?, interface?, hk, hq, hsink]
  · unfold Port.checkLeaf at hl
    split at hl
    · cases hl
    next hn => simpa using hn

theorem Wired.joins_of_free (h : c.Wired) {n m : Node} {i j : Interface}
    (hi : c.interface? .output n = some i) (hj : c.interface? .input m = some j)
    (hadmits : j.admits i = true) (hfree : ∀ id path, c.end? .input id ≠ some ⟨m, path⟩)
    {literal : Option Value} (haccepts : ∀ v, literal = some v → i.accepts v) :
    Joins c ⟨n, []⟩ ⟨m, []⟩ literal (.seeded ⟨n, []⟩ ⟨m, []⟩ i literal) := by
  obtain ⟨p, hp, rfl⟩ := Option.map_eq_some_iff.mp hi
  obtain ⟨q, hq, rfl⟩ := Option.map_eq_some_iff.mp hj
  have hopen : q.isLinked = false := by
    rw [Port.isLinked_eq_false]
    refine fun path => List.eq_nil_iff_forall_not_mem.mpr fun id hid => ?_
    exact hfree id path ((h.mem_linksAt_iff hq).mp hid)
  refine ⟨⟨p, _, hp, rfl, rfl, rfl⟩, ⟨q, _, hq, rfl, rfl, ?_⟩, haccepts, rfl, rfl⟩
  simp [Port.checkLeaf, Link.seeded, hadmits, hopen]

theorem Wired.fits_withLink (h : c.Wired) {start end_ : LinkEnd} {literal : Option Value}
    {l : Link} (hj : Joins c start end_ literal l) (m : Link) :
    (c.withLink l).Fits m ↔ c.Fits m := by
  simp only [Fits, typeAt?, h.interface?_withLink hj]

namespace Joined
variable {made : Insertion} {specs : List LinkSpec} {ls : List Link}

theorem sound (h : Joined made c specs ls c') (hc : c.Sound) : c'.Sound := by
  induction h with
  | nil c => exact hc
  | cons _ _ hj _ ih =>
    exact ih (hc.refaced (hc.wired.refaced_withLink hj) (hc.wired.withLink hj))

theorem interface? (h : Joined made c specs ls c') (hc : c.Wired) (d : Direction) (n : Node) :
    c'.interface? d n = c.interface? d n := by
  induction h with
  | nil c => rfl
  | cons _ _ hj _ ih => rw [ih (hc.withLink hj), hc.interface?_withLink hj]

theorem fits (h : Joined made c specs ls c') (hc : c.Wired) : ∀ l ∈ ls, c'.Fits l := by
  intro l hl
  have hfits : c.Fits l := by
    induction h with
    | nil c => cases hl
    | cons _ _ hj _ ih =>
      obtain rfl | hl := List.mem_cons.mp hl
      · exact hj.fits hc
      · exact (hc.fits_withLink hj l).mp (ih (hc.withLink hj) hl)
  simpa only [Fits, typeAt?, h.interface? hc] using hfits

theorem links (h : Joined made c specs ls c') (hc : c.Wired) :
    c'.links.entries = c.links.entries ++ (ls.zipIdx c.links.nextId).map Prod.swap ∧
      c'.links.nextId = c.links.nextId + ls.length := by
  induction h with
  | nil c => exact ⟨(List.append_nil _).symm, rfl⟩
  | cons _ _ hj _ ih =>
    obtain ⟨hentries, hnext⟩ := ih (hc.withLink hj)
    rw [hc.links_withLink] at hentries hnext
    refine ⟨?_, ?_⟩
    · rw [hentries, List.append_assoc, List.zipIdx_cons]
      rfl
    · rw [hnext, List.length_cons, Nat.add_right_comm]
      rfl

theorem port?_of_not_end (h : Joined made c specs ls c') {d : Direction} {n : Node}
    (hn : ∀ l ∈ ls, (l.endAt d).node ≠ n) : c'.port? d n = c.port? d n := by
  induction h with
  | nil c => rfl
  | @cons c _ _ _ l _ _ _ _ _ _ _ ih =>
    obtain ⟨hl, hls⟩ := List.forall_mem_cons.mp hn
    rw [ih hls, port?_withLink]
    simp only [if_neg hl.symm, Option.map_id']

theorem gates (h : Joined made c specs ls c') :
    c'.gateIds = c.gateIds ∧ c'.nextGate = c.nextGate ∧ c'.registry = c.registry := by
  induction h with
  | nil c => exact ⟨rfl, rfl, rfl⟩
  | @cons c _ _ _ l _ _ _ _ _ _ _ ih =>
    obtain ⟨hids, hnext, hregistry⟩ := ih
    refine ⟨hids.trans (gateIds_withLink c l), hnext.trans (nextGate_withLink c l), ?_⟩
    rw [hregistry]
    simp only [withLink, registry_mapPort]
    rfl

end Joined

theorem gates_add_of_lt (hc : ∀ id ∈ c.gateIds, id < c.nextGate) (g : Gate) :
    (c.add g).gates = c.gates ++ [(c.nextGate, g)] ∧
      ∀ id ∈ (c.add g).gateIds, id < (c.add g).nextGate := by
  have hadded : (c.add g).gates = c.gates ++ [(c.nextGate, g)] :=
    Entries.put_of_not_mem (fun hid => Nat.lt_irrefl _ (hc _ hid)) g
  refine ⟨hadded, fun id hid => ?_⟩
  rw [gateIds, hadded, Entries.keys_append] at hid
  obtain hid | hid := List.mem_append.mp hid
  · exact Nat.lt_succ_of_lt (hc id hid)
  · cases List.mem_singleton.mp hid
    exact Nat.lt_succ_self _

/-- Adding gates changes nothing else. -/
theorem insertGates_keeps (make : String → Except Fault Gate) (offset : Position)
    (c : Circuit Gate) (made : Insertion) (entries : List GateEntry) :
    (c.insertGates make offset made entries).1.links = c.links ∧
      ∀ d, (c.insertGates make offset made entries).1.port? d .boundary = c.port? d .boundary := by
  induction entries generalizing c made with
  | nil => exact ⟨rfl, fun _ => rfl⟩
  | cons entry entries ih =>
    rw [insertGates]
    cases make entry.typeName with
    | error e => exact ⟨rfl, fun _ => rfl⟩
    | ok g =>
      dsimp only
      obtain ⟨hlinks, hports⟩ := ih (c.add (g.moved ((entry.position.getD .zero).add offset)))
        { made with gates := made.gates.put entry.id c.nextGate }
      refine ⟨hlinks, fun d => (hports d).trans ?_⟩
      cases d <;> rfl

theorem Sound.insertGates {make : String → Except Fault Gate} (hmake : MakesSound make)
    (h : c.Sound) (offset : Position) (entries : List GateEntry) :
    (c.insertGates make offset ⟨[], [], c.innerInput, c.innerOutput⟩ entries).1.Sound := by
  obtain ⟨n, -, hr⟩ := (Insertion.Records.start h).insertGates hmake offset entries
  exact hr.ext.sound

/-- An insertion that succeeds has added all of its gates and joined all of its links. -/
theorem insert_eq_ok {make : String → Except Fault Gate} (hmake : MakesSound make) (hc : c.Sound)
    {d : Description} {offset : Position} :
    (∃ made, c.insert make d offset = (c', .ok made)) ↔ ∃ c₀ made specs ls,
      c.insertGates make offset ⟨[], [], c.innerInput, c.innerOutput⟩ d.gates =
        (c₀, made, .ok ()) ∧ d.specs = .ok specs ∧ Joined made c₀ specs ls c' := by
  have hsound := hc.insertGates hmake offset d.gates
  constructor
  · intro h
    obtain ⟨made, h⟩ := h
    rw [insert, insertParts] at h
    rcases hg : c.insertGates make offset ⟨[], [], c.innerInput, c.innerOutput⟩ d.gates with
      ⟨c₀, made₀, e | ⟨⟩⟩
    · rw [hg] at h
      cases h
    · rw [hg] at h hsound
      dsimp only at h
      cases hd : d.specs with
      | error e =>
        rw [hd] at h
        cases h
      | ok specs =>
        rw [hd] at h
        dsimp only at h
        rcases hi : c₀.insertLinks made₀ specs with ⟨c₁, made₁, e | ⟨⟩⟩
        · rw [hi] at h
          cases h
        · rw [hi] at h
          cases h
          obtain ⟨ls, hj⟩ := (insertLinks_eq_ok hsound.wired).mp ⟨_, hi⟩
          exact ⟨c₀, made₀, specs, ls, rfl, rfl, hj⟩
  · intro h
    obtain ⟨c₀, made₀, specs, ls, hg, hd, hj⟩ := h
    rw [hg] at hsound
    obtain ⟨made, hi⟩ := (insertLinks_eq_ok hsound.wired).mpr ⟨ls, hj⟩
    refine ⟨made, ?_⟩
    rw [insert, insertParts, hg]
    dsimp only
    rw [hd]
    dsimp only
    rw [hi]

theorem interface?_insert {make : String → Except Fault Gate} (hmake : MakesSound make)
    (hc : c.Sound) {d : Description} {offset : Position} {made : Insertion}
    (h : c.insert make d offset = (c', .ok made)) (dir : Direction) :
    c'.interface? dir .boundary = c.interface? dir .boundary := by
  obtain ⟨c₀, made₀, specs, ls, hg, -, hj⟩ := (insert_eq_ok hmake hc).mp ⟨made, h⟩
  have hs := hc.insertGates hmake offset d.gates
  obtain ⟨-, hports⟩ := insertGates_keeps make offset c
    ⟨[], [], c.innerInput, c.innerOutput⟩ d.gates
  rw [hg] at hs hports
  rw [hj.interface? hs.wired, interface?, interface?, hports]

end Circuit

namespace Gate

/-- An insertion that succeeds is one into the interior, after which the boundary is resolved. -/
theorem insert_eq_ok {face : Face} {c : Circuit Gate} {d : Description} {offset : Position}
    {g : Gate} : (∃ ids, (Gate.circuit face c).insert d offset = (g, .ok ids)) ↔
      ∃ c' made, c.insert (ofTemplate c.registry) d offset = (c', .ok made) ∧
        (Gate.circuit face c').resolve = (g, .ok ()) := by
  rcases hi : c.insert (ofTemplate c.registry) d offset with ⟨c', e | made⟩
  · simp [insert_of_failed hi]
  · rcases hr : (Gate.circuit face c').resolve with ⟨g', e | ⟨⟩⟩
    · simp [insert_of_refused hi hr, hr]
    · simp [insert_of_resolved hi hr, hr]

end Gate

end TickCircuit
