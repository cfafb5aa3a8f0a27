import TickCircuit.Proofs.Gate.Settling
/-!
Types at a boundary that has been new. An insertion wires it up and then gives it the types that
follow. Main statement: where a link leads from the boundary to a gate, the boundary has the type of
the leaf of the gate; elsewhere it has the types of its sub-ports, or none
(`boundary_typed_by_wiring`).
-/
namespace TickCircuit

/-- What a boundary port of direction `d`, seen from inside, takes from a leaf of a gate: its type,
but an `any` that a gate gives out comes without its label. -/
def Interface.taken (d : Direction) (i : Interface) : Interface :=
  match d, i with
  | .input, .any _ => default
  | _, i => i

theorem Interface.merge_default (i : Interface) : i.merge default = .ok (i.taken .input) := by
  cases i <;> simp [merge, taken, default]

theorem Interface.childAt?_default (path : Path) :
    (default : Interface).childAt? path = some default := by
  induction path with
  | nil => rfl
  | cons k path ih => exact ih

/-- There is no link at the path, nor above it. -/
def Port.Free (p : Port) (path : Path) : Prop := ∀ above, above <+: path → p.linksAt above = []

namespace Circuit
variable {c c' : Circuit Gate}

def Fresh (c : Circuit Gate) : Prop := ∀ d, c.port? d .boundary = some (.new d default)

theorem fresh_empty (registry : Registry) : (Circuit.empty registry).Fresh := by
  intro d
  cases d <;> rfl

/-- A circuit that was wired up from a new boundary. Its boundary ports have no types yet, and have
grown only for links. -/
structure Untyped (c : Circuit Gate) : Prop where
  wired : c.Wired
  any : ∀ {d p}, c.port? d .boundary = some p → p.interface = default
  bare : ∀ {d p}, c.port? d .boundary = some p → (∀ path, p.linksAt path = []) → p.subs = []

theorem Joined.port?_of_unlinked {made : Insertion} {specs : List LinkSpec} {ls : List Link}
    (h : Joined made c specs ls c') (hc : c.Sound) {d : Direction} {n : Node} {p : Port}
    (hp : c'.port? d n = some p) (hnone : ∀ path, p.linksAt path = []) :
    c'.port? d n = c.port? d n := by
  have hwired := (h.sound hc).wired
  refine h.port?_of_not_end fun l hl hn => ?_
  obtain ⟨k, hk⟩ := List.mem_iff_getElem?.mp hl
  have hentry : (c.links.nextId + k, l) ∈ c'.links.entries := by
    rw [(h.links hc.wired).1]
    refine List.mem_append_right _ (List.mem_map.mpr ⟨(l, c.links.nextId + k), ?_, rfl⟩)
    exact List.mk_mem_zipIdx_iff_le_and_getElem?_sub.mpr ⟨Nat.le_add_right _ _, by simpa using hk⟩
  have hend : c'.end? d (c.links.nextId + k) = some ⟨n, (l.endAt d).path⟩ := by
    rw [end?, LinkTable.get?, Entries.get?_of_mem hwired.links_nodup hentry, ← hn]
    rfl
  have hmem := (hwired.mem_linksAt_iff hp).mpr hend
  rw [hnone] at hmem
  cases hmem

theorem Fresh.insert (h : c.Fresh) (hc : c.Sound) {make : String → Except Fault Gate}
    (hmake : MakesSound make) {d : Description} {offset : Position} {made : Insertion}
    (hi : c.insert make d offset = (c', .ok made)) : c'.Untyped := by
  obtain ⟨c₀, made₀, specs, ls, hg, -, hj⟩ := (insert_eq_ok hmake hc).mp ⟨made, hi⟩
  have hs := hc.insertGates hmake offset d.gates
  obtain ⟨-, hports⟩ := insertGates_keeps make offset c
    ⟨[], [], c.innerInput, c.innerOutput⟩ d.gates
  rw [hg] at hs hports
  refine ⟨(hj.sound hs).wired, fun {d p} hp => ?_, fun {d p} hp hnone => ?_⟩
  · have hsame := interface?_insert hmake hc hi d
    rw [interface?, interface?, hp, h] at hsame
    exact (Option.some.inj hsame).trans (Port.interface_new d default)
  · have hsame := hj.port?_of_unlinked hs hp hnone
    rw [hp, hports, h] at hsame
    cases hsame
    rfl

theorem Untyped.linkType (h : c.Untyped) {id : LinkId} {d : Direction} {path far : Path} {gate : GateId}
    (here : c.end? d id = some ⟨.boundary, path⟩)
    (there : c.end? d.opposite id = some ⟨.gate gate, far⟩) :
    ∃ q leaf, c.port? d.opposite (.gate gate) = some q ∧ q.sub? far = some leaf ∧
      c.linkType id = .ok (leaf.interface.taken d) := by
  obtain ⟨l, hl, here⟩ := Option.map_eq_some_iff.mp here
  obtain ⟨l', hl', there⟩ := Option.map_eq_some_iff.mp there
  cases hl.symm.trans hl'
  obtain ⟨q, leaf, hq, hleaf, htype⟩ := h.wired.leaf_end hl d.opposite
  obtain ⟨p, hp⟩ : ∃ p, c.port? d .boundary = some p :=
    (port?_isSome c d .boundary).mpr (.inl rfl)
  have hany : c.typeAt? d (l.endAt d) = some default := by
    rw [here, typeAt?, interface?, hp, Option.map_some, h.any hp]
    exact Interface.childAt?_default path
  rw [there] at hq hleaf
  refine ⟨q, leaf, hq, hleaf, ?_⟩
  cases d with
  | output =>
    rw [h.wired.linkType_eq hl hany htype, Interface.merge_of_isAny rfl]
    rfl
  | input =>
    rw [h.wired.linkType_eq hl htype hany, Interface.merge_default]
    rfl

/-- The types of a boundary port are those of what it is wired to. The first link at a place, with
none above, brings the type of the leaf at its other end; below such places the port has what the
type has there. -/
structure TypedByWiring (c : Circuit Gate) (d : Direction) (p : Port) : Prop where
  linked : ∀ {path id ids gate far},
    (∀ above, above <+: path → above ≠ path → p.linksAt above = []) → p.linksAt path = id :: ids →
      c.end? d.opposite id = some ⟨.gate gate, far⟩ →
        ∃ q leaf, c.port? d.opposite (.gate gate) = some q ∧ q.sub? far = some leaf ∧
          p.interface.childAt? path = some (leaf.interface.taken d)
  leaf : ∀ {path q}, p.sub? path = some q → p.Free path → q.subs = [] → q.interface = .none none
  node : ∀ {path q}, p.sub? path = some q → p.Free path → q.subs ≠ [] →
    q.interface = .collection none (q.subs.map (·.interface))
  unlinked : (∀ path, p.linksAt path = []) → p.interface = .none none

theorem Infers.typedByWiring (h : c.Infers c') (hc : c.Untyped) {d : Direction} {p : Port}
    (hp : c'.port? d .boundary = some p) : c'.TypedByWiring d p := by
  obtain ⟨p₀, i, hp₀, hi, hcheck, hq⟩ := h.boundary d
  cases hq.symm.trans hp
  have hshaped := hc.wired.shaped hp₀
  have hany : p₀.interface.isAny := by
    rw [hc.any hp₀]
    rfl
  have hsame := Port.linksAt_retyped hcheck
  have hundecided : ∀ {path}, (p₀.retyped i).Free path → p₀.decider? path = none := by
    intro path hfree
    exact deciding_eq_none.mpr fun above hle => (hsame above).symm.trans (hfree above hle)
  exact {
    linked := by
      intro path id ids gate far habove hid there
      have hdecides : p₀.decider? path = some (id, []) :=
        deciding_here (fun above hle hne => (hsame above).symm.trans (habove above hle hne))
          ((hsame path).symm.trans hid)
      have here : c.end? d id = some ⟨.boundary, path⟩ :=
        hc.wired.end?_of_decides ⟨p₀, hp₀, hdecides⟩
      rw [end?, h.links] at there
      obtain ⟨q, leaf, hq, hleaf, htype⟩ := hc.linkType here there
      obtain ⟨t, ht, hat⟩ := Port.inferred_childAt hshaped hany hi hdecides
      cases ht.symm.trans htype
      refine ⟨q, leaf, ?_, hleaf, ?_⟩
      · simpa only [port?, gate?, h.gates] using hq
      · rw [Port.interface_retyped]
        exact hat
    leaf := fun hq hfree => (hshaped.interface_of_undecided hany hi (hundecided hfree) hq).1
    node := fun hq hfree => (hshaped.interface_of_undecided hany hi (hundecided hfree) hq).2
    unlinked := by
      intro hnone
      have hold : ∀ path, p₀.linksAt path = [] := fun path => (hsame path).symm.trans (hnone path)
      have hfinal := Interface.not_isFinal_of_isAny hany
      rw [Port.inferred_of_bare hfinal (hold []) (hc.bare hp₀ hold)] at hi
      cases hi
      exact Port.interface_retyped _ _ }

end Circuit

/-- The types that a new boundary has after an insertion, inside as outside. -/
theorem boundary_typed_by_wiring {own : Face} {c : Circuit Gate}
    (hg : (Gate.circuit own c).Reachable) (hfresh : c.Fresh) {d : Description} {offset : Position}
    {g : Gate} {ids : Entries String GateId}
    (h : (Gate.circuit own c).insert d offset = (g, .ok ids)) :
    ∃ own' c', g = .circuit own' c' ∧ own'.Matches c' ∧
      ∀ d p, c'.port? d .boundary = some p → c'.TypedByWiring d p := by
  obtain ⟨-, -, hc⟩ := Gate.sound_circuit_iff.mp hg.sound
  have hsound := (hg.sound.insert d offset).1
  rw [h] at hsound
  obtain ⟨c₁, made, hi, hr⟩ := Gate.insert_eq_ok.mp ⟨ids, h⟩
  have huntyped := hfresh.insert hc (Gate.makesSound_ofTemplate c.registry) hi
  obtain ⟨input, output, hb⟩ := Gate.resolve_eq_ok hr
  obtain ⟨-, -, -, -, rfl⟩ := Gate.setBoundary_eq_ok.mp hb
  obtain ⟨-, hmatches, -⟩ := Gate.sound_circuit_iff.mp hsound
  exact ⟨_, _, rfl, hmatches, fun d p hp => (Gate.infers_resolve hr).typedByWiring huntyped hp⟩

def Description.gap : Description := ⟨[⟨"a", "one", none⟩], ["outside/1=>a"]⟩

def Circuit.gap (input output : Port) : Circuit Gate where
  gates := [(0, .fan "one" "not" (.new .input (.bit none)) [0])]
  links := ⟨[(0, .seeded ⟨.boundary, [1]⟩ ⟨.gate 0, []⟩ default none)], 1⟩
  innerInput := input
  innerOutput := output
  registry := .fan
  nextGate := 1

def Port.gap (whole first second : Interface) : Port :=
  ⟨.output, whole, [], [.new .output first, { Port.new .output second with links := [0] }]⟩

theorem insert_gap : ∃ face ids, (Gate.ofCircuit "scratch" (.empty .fan)).insert .gap .zero =
    (.circuit face (.gap (.gap (.collection none [.none none, .bit none]) (.none none) (.bit none))
      (.new .input (.none none))), .ok ids) := by
  have hone := Gate.ofTemplate_transform .fan "one" rfl rfl
  have hgates : (Circuit.empty .fan).insertGates (Gate.ofTemplate .fan) .zero
      ⟨[], [], .new .output default, .new .input default⟩ Description.gap.gates =
      (⟨[(0, .fan "one" "not" (.new .input (.bit none)) [])],
        .empty, .new .output default, .new .input default, .fan, 1⟩,
        ⟨[("a", 0)], [], .new .output default, .new .input default⟩, .ok ()) := by
    simp only [Description.gap, Circuit.insertGates, hone]
    rfl
  have hspecs : Description.gap.specs =
      .ok [⟨⟨.outside, [.index 1]⟩, ⟨.gate "a", []⟩, none⟩] := rfl
  have hinsert : (Circuit.empty .fan).insert (Gate.ofTemplate .fan) .gap .zero =
      (.gap (.gap default default default) (.new .input default),
        .ok ⟨[("a", 0)], [0], .new .output default, .new .input default⟩) := by
    simp only [Circuit.insert, Circuit.insertParts, hspecs]
    simp only [Circuit.empty] at hgates ⊢
    rw [hgates]
    rfl
  refine ⟨{ Face.new "scratch" ⟨default, default⟩ with
      input := .new .input (.collection none [.none none, .bit none])
      output := .new .output (.none none) }, [("a", 0)], ?_⟩
  simp only [Circuit.empty] at hinsert
  simp only [Gate.ofCircuit, Gate.insert, Circuit.empty, hinsert]
  rfl

/-- The second part of the input has the type that the gate takes in. Nothing says what the first
part is, and nothing leads to the output. -/
theorem boundary_typed_by_wiring_gap : ∃ face c ids,
    (Gate.ofCircuit "scratch" (.empty .fan)).insert .gap .zero = (.circuit face c, .ok ids) ∧
    face.Matches c ∧
    c.innerInput.interface = .collection none (c.innerInput.subs.map (·.interface)) ∧
    (∃ q, c.innerInput.sub? [0] = some q ∧ q.interface = .none none) ∧
    (∃ q leaf, c.port? .input (.gate 0) = some q ∧ q.sub? [] = some leaf ∧
      c.innerInput.interface.childAt? [1] = some (leaf.interface.taken .output)) ∧
    c.innerOutput.interface = .none none := by
  obtain ⟨face, ids, h⟩ := insert_gap
  obtain ⟨_, _, hg, hmatches, htyped⟩ :=
    boundary_typed_by_wiring (.circuit "scratch" .fan) (Circuit.fresh_empty .fan) h
  cases hg
  have hinput := htyped .output _ rfl
  have houtput := htyped .input _ rfl
  have hfirst : Port.Free (.gap (.collection none [.none none, .bit none]) (.none none)
      (.bit none)) [0] := by
    intro above hle
    obtain rfl | ⟨rest, rfl, hrest⟩ := List.prefix_cons_iff.mp hle
    · rfl
    · rw [List.prefix_nil.mp hrest]
      rfl
  have hroot : Port.Free _ [] := fun above hle => hfirst above (hle.trans List.nil_prefix)
  refine ⟨face, _, ids, h, hmatches, hinput.node rfl hroot nofun,
    ⟨_, rfl, hinput.leaf rfl hfirst rfl⟩, hinput.linked (fun above hle hne => ?_) rfl rfl,
    houtput.unlinked (Port.linksAt_new _ _)⟩
  obtain rfl | ⟨rest, rfl, hrest⟩ := List.prefix_cons_iff.mp hle
  · rfl
  · rw [List.prefix_nil.mp hrest] at hne
    exact absurd rfl hne

end TickCircuit
