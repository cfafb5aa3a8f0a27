import TickCircuit.Proofs.Gate.Ids
/-!
The wiring of everything that is reachable: table and ports agree on every link, and no id is given
out twice (`reachable_wiring`).
-/
namespace TickCircuit

namespace Circuit

def inUse (c : Circuit Gate) : List Handle := c.gateIds.map .gate ++ c.links.ids.map .link

/-- A link of the table has a port at either end, which holds it once at its path; no other port
holds it, and no port holds what is not a link of the table. -/
structure Consistent (c : Circuit Gate) : Prop where
  source : ∀ {id l}, c.links.get? id = some l → ∃ p q, c.source l.source.node = .ok p ∧
    p.sub? l.source.path = some q ∧ q.links.count id = 1
  sink : ∀ {id l}, c.links.get? id = some l → ∃ p q, c.sink l.sink.node = .ok p ∧
    p.sub? l.sink.path = some q ∧ q.links.count id = 1
  source_only : ∀ {id l n p path q}, c.links.get? id = some l → c.source n = .ok p →
    p.sub? path = some q → id ∈ q.links → l.source = ⟨n, path⟩
  sink_only : ∀ {id l n p path q}, c.links.get? id = some l → c.sink n = .ok p →
    p.sub? path = some q → id ∈ q.links → l.sink = ⟨n, path⟩
  source_live : ∀ {n p}, c.source n = .ok p → ∀ id ∈ p.allLinks, c.links.has id
  sink_live : ∀ {n p}, c.sink n = .ok p → ∀ id ∈ p.allLinks, c.links.has id

variable {c : Circuit Gate}

theorem Wired.held (h : c.Wired) {id : LinkId} {l : Link} (hl : c.links.get? id = some l)
    (d : Direction) : ∃ p q, c.port? d (l.endAt d).node = some p ∧
      p.sub? (l.endAt d).path = some q ∧ q.links.count id = 1 := by
  have hend : c.end? d id = some (l.endAt d) := by rw [end?, hl]; rfl
  obtain ⟨p, hp⟩ := h.ends hend
  have hcount := h.count hp (l.endAt d).path id
  rw [if_pos hend] at hcount
  cases hq : p.sub? (l.endAt d).path with
  | none => simp [Port.linksAt, hq] at hcount
  | some q => exact ⟨p, q, hp, hq, by simpa [Port.linksAt, hq] using hcount⟩

theorem Wired.held_only (h : c.Wired) {id : LinkId} {l : Link} (hl : c.links.get? id = some l)
    {d : Direction} {n : Node} {p q : Port} {path : Path} (hp : c.port? d n = some p)
    (hq : p.sub? path = some q) (hid : id ∈ q.links) : l.endAt d = ⟨n, path⟩ := by
  have hend : c.end? d id = some (l.endAt d) := by rw [end?, hl]; rfl
  have hmem : c.end? d id = some ⟨n, path⟩ :=
    (h.mem_linksAt_iff hp).mp (by simpa [Port.linksAt, hq])
  exact Option.some.inj (hend.symm.trans hmem)

theorem Wired.live (h : c.Wired) {d : Direction} {n : Node} {p : Port} (hp : c.port? d n = some p)
    {id : LinkId} (hid : id ∈ p.allLinks) : c.links.has id := by
  obtain ⟨path, hpath⟩ := Port.mem_allLinks.mp hid
  have hend := (h.mem_linksAt_iff hp).mp hpath
  obtain ⟨l, hl, -⟩ := Option.map_eq_some_iff.mp hend
  rw [LinkTable.has, Entries.has_eq_true_iff]
  exact Entries.mem_keys_of_get? hl

theorem Wired.consistent (h : c.Wired) : c.Consistent where
  source hl := by
    obtain ⟨p, q, hp, hq⟩ := h.held hl .output
    exact ⟨p, q, source_eq_ok.mpr hp, hq⟩
  sink hl := by
    obtain ⟨p, q, hp, hq⟩ := h.held hl .input
    exact ⟨p, q, sink_eq_ok.mpr hp, hq⟩
  source_only hl hp := h.held_only hl (source_eq_ok.mp hp)
  sink_only hl hp := h.held_only hl (sink_eq_ok.mp hp)
  source_live hp _ := h.live (source_eq_ok.mp hp)
  sink_live hp _ := h.live (sink_eq_ok.mp hp)

theorem mem_inUse_gate {id : GateId} : .gate id ∈ c.inUse ↔ id ∈ c.gateIds := by
  simp [inUse]

theorem mem_inUse_link {id : LinkId} : .link id ∈ c.inUse ↔ id ∈ c.links.ids := by
  simp [inUse]

theorem Ages.mem_inUse {c' : Circuit Gate} (h : c.Ages c') (hc' : c'.Wired) {k : Handle}
    (hk : k ∈ c'.inUse) : k ∈ c.inUse ∨ k ∈ c.passed c' := by
  cases k with
  | gate id =>
    rw [mem_inUse_gate] at hk ⊢
    rw [mem_passed_gate]
    by_cases hlt : id < c.nextGate
    · obtain ⟨g', hg'⟩ := Entries.mem_keys_iff.mp hk
      obtain ⟨g, hg, -⟩ := h.gate hlt hg'
      exact .inl (Entries.mem_keys_of_get? hg)
    · exact .inr ⟨Nat.le_of_not_lt hlt, hc'.gates_lt id hk⟩
  | link id =>
    rw [mem_inUse_link] at hk ⊢
    rw [mem_passed_link]
    by_cases hlt : id < c.links.nextId
    · exact .inl (h.link hlt hk)
    · exact .inr ⟨Nat.le_of_not_lt hlt, hc'.links_lt id hk⟩

theorem Wired.not_mem_passed (h : c.Wired) (c' : Circuit Gate) {k : Handle} (hk : k ∈ c.inUse) :
    k ∉ c.passed c' := by
  cases k with
  | gate id =>
    rw [mem_passed_gate]
    exact fun hp => h.gate_not_mem hp.1 (mem_inUse_gate.mp hk)
  | link id =>
    rw [mem_passed_link]
    exact fun hp => h.link_not_mem hp.1 (mem_inUse_link.mp hk)

end Circuit

def Operation.Allowed (op : Operation) : Prop :=
  ∀ a, op = .edit (.add a) → a.Reachable ∧ a.Unlinked

namespace Gate

/-- What comes into use was given out just now, and what is given out was not in use. -/
theorem Sound.inUse_perform {g : Gate} (h : g.Sound) {path : List GateId} {op : Operation}
    (hs : (g.perform path op).1.Sound) {face face' : Face} {c c' : Circuit Gate}
    (ha : g.at? path = some (.circuit face c))
    (ha' : (g.perform path op).1.at? path = some (.circuit face' c')) :
    (∀ k ∈ c'.inUse, k ∈ c.inUse ∨ (path, k) ∈ g.issues path op) ∧
      ∀ k ∈ c.inUse, (path, k) ∉ g.issues path op := by
  obtain ⟨-, -, hc⟩ := sound_circuit_iff.mp (h.at? ha)
  obtain ⟨-, -, hc'⟩ := sound_circuit_iff.mp (hs.at? ha')
  obtain ⟨_, _, _, _, ha₁, ha₂, hage, heq, -⟩ | ⟨hnone, -⟩ := h.issues_cases path op
  · rw [ha] at ha₁
    rw [ha'] at ha₂
    cases ha₁
    cases ha₂
    have hmem : ∀ k, (path, k) ∈ g.issues path op ↔ k ∈ c.passed c' := by simp [heq]
    simp only [hmem]
    exact ⟨fun k => hage.mem_inUse hc'.wired, fun k => hc.wired.not_mem_passed c'⟩
  · exact absurd ha (hnone face c)

end Gate

/-- Whatever is reachable is wired consistently at every depth. What an operation hands out is
fresh, and over a run no circuit gives out an id twice. -/
theorem reachable_wiring {g : Gate} (hg : g.Reachable) :
    (∀ path face c, g.at? path = some (.circuit face c) → c.Consistent) ∧
      (∀ path (op : Operation), op.Allowed →
        (g.perform path op).2.Nodup ∧
        (∀ k ∈ (g.perform path op).2, (path, k) ∈ g.issues path op) ∧
        ∀ face c face' c', g.at? path = some (.circuit face c) →
          (g.perform path op).1.at? path = some (.circuit face' c') →
          (∀ k ∈ c'.inUse, k ∈ c.inUse ∨ (path, k) ∈ g.issues path op) ∧
          ∀ k ∈ c.inUse, (path, k) ∉ g.issues path op) ∧
      ∀ steps : List (List GateId × Operation), (∀ s ∈ steps, s.2.Allowed) →
        (g.issuesOf steps).Nodup := by
  have hs := hg.sound
  refine ⟨fun path face c ha => ?_, fun path op hop => ?_, fun steps hsteps => ?_⟩
  · obtain ⟨-, -, hc⟩ := Gate.sound_circuit_iff.mp (hs.at? ha)
    exact hc.wired.consistent
  · have hadd : ∀ a, op = .edit (.add a) → a.Sound ∧ a.Unlinked := fun a ha =>
      ⟨(hop a ha).1.sound, (hop a ha).2⟩
    have hissue := hs.issues_cases path op
    refine ⟨?_, ?_, fun face c face' c' => hs.inUse_perform (hs.perform path hadd)⟩
    · obtain ⟨_, _, _, _, -, -, -, -, hn, -⟩ | ⟨-, -, hnil⟩ := hissue
      · exact hn
      · rw [hnil]
        exact .nil
    · obtain ⟨_, _, _, _, -, -, -, heq, -, hm⟩ | ⟨-, -, hnil⟩ := hissue
      · intro k hk
        rw [heq]
        exact List.mem_map.mpr ⟨k, hm k hk, rfl⟩
      · simp [hnil]
  · refine (hs.nodup_issuesOf fun s hm a ha => ?_).1
    obtain ⟨hr, hfree⟩ := hsteps s hm a ha
    exact ⟨hr.sound, hfree⟩

def Gate.wire : Gate :=
  ((Gate.ofCircuit "wire" (.empty .empty)).perform []
    (.edit (.connect ⟨.boundary, []⟩ ⟨.boundary, []⟩ none))).1

theorem Gate.reachable_wire : Gate.wire.Reachable :=
  .step (.circuit "wire" .empty) [] _ (fun _ h => by cases h) fun _ h => by cases h

/-- Two inverters in a row between the two sides of the boundary. -/
def Circuit.series : Circuit Gate :=
  (Circuit.empty .empty).edited [.add .inverter, .add .inverter,
    .connect ⟨.boundary, []⟩ ⟨.gate 0, []⟩ (some .low),
    .connect ⟨.gate 0, []⟩ ⟨.gate 1, []⟩ (some .low),
    .connect ⟨.gate 1, []⟩ ⟨.boundary, []⟩ (some .low)]

def Gate.series : Gate := (Gate.ofCircuit "series" .series).resolve.1

theorem Gate.series_usable : series.Reachable ∧ series.Unlinked := by
  have hedited : (Gate.ofCircuit "series" .series).Reachable :=
    reachable_of_inverters "series" .empty fun a ha => by simpa using ha
  refine ⟨hedited.step [] .resolve nofun nofun, fun d path => ?_⟩
  cases d <;> cases path <;> rfl

/-- The gate in a circuit, fed by an inverter that has given out a one. -/
def Circuit.fed (g : Gate) : Circuit Gate :=
  (Circuit.empty .empty).edited
    [.add g, .add .inverter, .connect ⟨.gate 1, []⟩ ⟨.gate 0, []⟩ (some .high)]

def Gate.fed (g : Gate) : Gate := .circuit (.new "fed" ⟨default, default⟩) (.fed g)

theorem Gate.reachable_fed {g : Gate} (h : g.Reachable ∧ g.Unlinked) : (fed g).Reachable := by
  refine .edited (.circuit "fed" .empty) fun a ha => ?_
  obtain rfl | rfl : a = g ∨ a = .inverter := by simpa using ha
  · exact h
  · exact inverter_usable

/-- Outside there are two gates and a link, inside two gates and three links. Inverters that are
added here and there and a link that is made anew get ids of their own. -/
theorem reachable_wiring_fed : ∃ face inner,
    (Circuit.fed .series).inUse = [.gate 0, .gate 1, .link 0] ∧ (Circuit.fed .series).Consistent ∧
    (Gate.fed .series).at? [0] = some (.circuit face inner) ∧
    inner.inUse = [.gate 0, .gate 1, .link 0, .link 1, .link 2] ∧ inner.Consistent ∧
    ∃ steps, (Gate.fed .series).issuesOf steps = [([], .gate 2), ([0], .gate 2), ([], .link 1)] ∧
      ((Gate.fed .series).issuesOf steps).Nodup := by
  obtain ⟨hconsistent, -, hnodup⟩ := reachable_wiring (Gate.reachable_fed Gate.series_usable)
  have hinner : (Gate.fed .series).at? [0] = some _ := rfl
  let steps : List (List GateId × Operation) := [([], .edit (.add .inverter)),
    ([0], .edit (.add .inverter)), ([], .edit (.deleteLink 0)),
    ([], .edit (.connect ⟨.gate 1, []⟩ ⟨.gate 0, []⟩ none))]
  have hallowed : ∀ s ∈ steps, s.2.Allowed := by
    intro s hs a ha
    obtain rfl : a = .inverter := by
      simp only [steps, List.mem_cons, List.not_mem_nil, or_false] at hs
      obtain rfl | rfl | rfl | rfl := hs <;> simp_all
    exact Gate.inverter_usable
  exact ⟨_, _, rfl, hconsistent [] _ _ rfl, hinner, rfl, hconsistent [0] _ _ hinner, steps, rfl,
    hnodup steps hallowed⟩

end TickCircuit
