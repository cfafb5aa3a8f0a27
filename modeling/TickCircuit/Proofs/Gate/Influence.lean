import TickCircuit.Proofs.Gate.Consistent
import TickCircuit.Proofs.Gate.Running
/-!
How far a gate makes itself felt. Main statement: where two circuits differ in what one gate does
and run on the same input, only what links lead to from that gate can differ, and it does not before
its distance from the gate is run through (`influence_along_links`).
-/
namespace TickCircuit
namespace Circuit

/-- That many links lead from gate to gate, one after the other. -/
inductive Leads (c : Circuit Gate) (start : GateId) : Nat → GateId → Prop where
  | refl : Leads c start 0 start
  | link {n : Nat} {a b : GateId} {id : LinkId} {l : Link} (h : Leads c start n a)
    (hl : c.links.get? id = some l) (source : l.source.node = .gate a)
    (sink : l.sink.node = .gate b) : Leads c start (n + 1) b

def Beyond (c : Circuit Gate) (start : GateId) (k : Nat) (n : Node) : Prop :=
  ∀ d a, n = .gate a → c.Leads start d a → k ≤ d

/-- Two circuits of the wiring of `c₀` are the same wherever fewer than `k` links do not lead. -/
structure SameBeyond (c₀ : Circuit Gate) (start : GateId) (k : Nat) (a b : Circuit Gate) :
    Prop where
  left : c₀.Alike a
  right : c₀.Alike b
  gate : ∀ {id}, id ≠ start → c₀.Beyond start k (.gate id) → a.gate? id = b.gate? id
  link : ∀ {id l}, c₀.links.get? id = some l → c₀.Beyond start k l.source.node →
    a.links.get? id = b.links.get? id

variable {c₀ a b : Circuit Gate} {start : GateId} {k : Nat}

theorem Beyond.le {n : Node} {j : Nat} (h : c₀.Beyond start k n) (hj : j ≤ k) :
    c₀.Beyond start j n := fun d x hx hd => Nat.le_trans hj (h d x hx hd)

theorem Beyond.ne_start {id : GateId} (h : c₀.Beyond start (k + 1) (.gate id)) : id ≠ start := by
  intro heq
  subst heq
  exact Nat.not_succ_le_zero k (h 0 id rfl .refl)

theorem Beyond.source {id : LinkId} {l : Link} (hl : c₀.links.get? id = some l)
    (h : c₀.Beyond start (k + 1) l.sink.node) {g : GateId} (hg : l.sink.node = .gate g) :
    c₀.Beyond start k l.source.node := by
  intro d x hx hd
  exact Nat.le_of_succ_le_succ (h (d + 1) g hg (hd.link hl hx hg))

theorem SameBeyond.read (h : c₀.SameBeyond start k a b) (ha : a.Wired) {id : GateId} {g : Gate}
    (hg : a.gate? id = some g) (hid : c₀.Beyond start (k + 1) (.gate id)) :
    g.input.read a.links = g.input.read b.links := by
  have hport : a.port? .input (.gate id) = some g.input := by
    rw [port?, hg]
    rfl
  refine Port.read_congr fun j hj => ?_
  obtain ⟨path, hpath⟩ := Port.mem_allLinks.mp hj
  obtain ⟨l, hl, hsink⟩ := Option.map_eq_some_iff.mp ((ha.mem_linksAt_iff hport).mp hpath)
  obtain ⟨l₀, hl₀, hblank⟩ := h.left.get?_link hl
  have hend : l₀.sink.node = .gate id := by
    have he : l₀.sink = l.sink := Link.endAt_of_blank hblank .input
    rw [he, show l.sink = ⟨.gate id, path⟩ from hsink]
  have hsource := Beyond.source hl₀ (by rw [hend]; exact hid) hend
  rw [h.link hl₀ hsource]

theorem SameBeyond.emitted (h : c₀.SameBeyond start k a b) (ha : a.Wired) {face face' : Face}
    {t u : LinkTable} (hread : face.input.read t = face'.input.read u) {n : Node}
    (hn : c₀.Beyond start (k + 1) n) : a.emitted face t n = b.emitted face' u n := by
  cases n with
  | gate id =>
    rw [Circuit.emitted, Circuit.emitted, ← h.gate hn.ne_start (hn.le (Nat.le_succ k))]
    cases hg : a.gate? id with
    | none => rfl
    | some g => exact Gate.emission_of_read (h.read ha hg hn)
  | boundary =>
    have hinput : a.innerInput = b.innerInput :=
      Option.some.inj ((h.left.symm.trans h.right).port .output .boundary)
    simp only [Circuit.emitted, intake, hread, hinput]
  | host => rfl

/-- In one tick what a gate does comes one link further. -/
theorem SameBeyond.ticked (h : c₀.SameBeyond start k a b) (ha : a.Sound) (hb : b.Sound)
    {face face' : Face} {t u : LinkTable} (hread : face.input.read t = face'.input.read u) :
    c₀.SameBeyond start (k + 1) (a.ticked face t) (b.ticked face' u) where
  left := h.left.trans (ha.ticked face t).2.1
  right := h.right.trans (hb.ticked face' u).2.1
  gate {id} hid hfar := by
    have hsame := h.gate hid (hfar.le (Nat.le_succ k))
    rw [gate?_ticked, gate?_ticked, ← hsame]
    cases hg : a.gate? id with
    | none => rfl
    | some g =>
      have hupdate := Gate.update_fst_of_read (ha.children hg).shaped (h.read ha.wired hg hfar)
      exact congrArg some hupdate
  link {id l₀} hl₀ hfar := by
    have hsame := h.link hl₀ (hfar.le (Nat.le_succ k))
    rw [get?_ticked, get?_ticked, ← hsame]
    cases hl : a.links.get? id with
    | none => rfl
    | some l =>
      obtain ⟨m, hm, hblank⟩ := h.left.get?_link hl
      rw [hl₀] at hm
      cases hm
      have hsource : l₀.source = l.source := Link.endAt_of_blank hblank .output
      rw [hsource] at hfar
      simp only [Option.map_some, settled, h.emitted ha.wired hread hfar]

theorem SameBeyond.takesIn (h : c₀.SameBeyond start k a b) {face face' : Face} {t u : LinkTable}
    (hread : face.input.read t = face'.input.read u) : a.TakesIn face t ↔ b.TakesIn face' u := by
  have hinput : a.innerInput = b.innerInput :=
    Option.some.inj ((h.left.symm.trans h.right).port .output .boundary)
  rw [TakesIn, TakesIn, hread, hinput]

/-- In a run it comes one link further with every tick. -/
theorem SameBeyond.run {outers outers' : List LinkTable} {face face' : Face}
    (h : c₀.SameBeyond start k a b) (ha : a.Sound) (hb : b.Sound)
    (hreads : outers.map (face.input.read ·) = outers'.map (face'.input.read ·)) :
    ∃ own a' own' b', (Gate.circuit face a).run outers = .circuit own a' ∧
      (Gate.circuit face' b).run outers' = .circuit own' b' ∧
      c₀.SameBeyond start (k + outers.length) a' b' := by
  induction outers generalizing k a b face face' outers' with
  | nil =>
    cases List.map_eq_nil_iff.mp hreads.symm
    exact ⟨face, a, face', b, rfl, rfl, h⟩
  | cons t outers ih =>
    obtain ⟨u, outers', rfl, hread, hreads⟩ := List.map_eq_cons_iff.mp hreads.symm
    rw [eq_comm] at hread hreads
    obtain ⟨face₁, a₁, he, hi, -, hcase⟩ := ha.update_circuit face t
    obtain ⟨face₁', b₁, he', hi', -, hcase'⟩ := hb.update_circuit face' u
    rw [← hi, ← hi'] at hreads
    have hnext : a₁.Sound ∧ b₁.Sound ∧ c₀.SameBeyond start (k + 1) a₁ b₁ := by
      have htakes := h.takesIn hread
      obtain ⟨hyes, rfl⟩ | ⟨hno, rfl⟩ := hcase
      · obtain ⟨-, rfl⟩ | ⟨hno, -⟩ := hcase'
        · exact ⟨(ha.ticked face t).1, (hb.ticked face' u).1, h.ticked ha hb hread⟩
        · exact absurd (htakes.mp hyes) hno
      · obtain ⟨hyes, -⟩ | ⟨-, rfl⟩ := hcase'
        · exact absurd (htakes.mpr hyes) hno
        · refine ⟨ha, hb, h.left, h.right, fun hid hfar => ?_, fun hl hfar => ?_⟩
          · exact h.gate hid (hfar.le (Nat.le_succ k))
          · exact h.link hl (hfar.le (Nat.le_succ k))
    obtain ⟨ha₁, hb₁, hsame⟩ := hnext
    obtain ⟨own, a', own', b', hrun, hrun', hfinal⟩ := ih hsame ha₁ hb₁ hreads
    refine ⟨own, a', own', b', ?_, ?_, ?_⟩
    · rw [Gate.run, List.foldl_cons, he]
      exact hrun
    · rw [Gate.run, List.foldl_cons, he']
      exact hrun'
    · rwa [List.length_cons, Nat.add_comm outers.length, ← Nat.add_assoc]

theorem SameBeyond.of_replaceGate (h : a.Sound) {face : Face} {name : String}
    {f : Option Transform} (hg : a.gate? start = some (.function face name f)) (name' : String)
    (f' : Option Transform) :
    let b := a.modifyGate start fun _ => .function face name' f'
    b.Sound ∧ a.SameBeyond start 0 a b := by
  have hshaped : (Gate.function face name' f').PortsShaped :=
    (h.children hg).shaped.of_port_eq fun d => by cases d <;> rfl
  have hface : (Gate.function face name' f').face = (Gate.function face name f).face := rfl
  have halike := (h.alike_replaceGate hg hface).1
  refine ⟨h.sound_replaceGate hg (.function hshaped) rfl, .refl a, halike, fun {id} hid _ => ?_,
    fun _ _ => rfl⟩
  rw [gate?, gate?, modifyGate, Entries.get?_modify, if_neg (Ne.symm hid)]

end Circuit

/-- Two circuits of which one gate has different transforms, if it has any, and which read the same
at their outer inputs in every tick. What no links lead to from that gate is the same in both after
the run: the links from there with all that they carry, and the gates with their faults and all that
is inside of them. The links from a gate to which no fewer than `d` links lead are the same after
up to `d` ticks. -/
theorem influence_along_links {own : Face} {c : Circuit Gate}
    (hc : (Gate.circuit own c).Reachable) {start : GateId} {face : Face} {name : String}
    {f : Option Transform} (hg : c.gate? start = some (.function face name f)) (name' : String)
    (f' : Option Transform) {outers outers' : List LinkTable}
    (hreads : outers.map (own.input.read ·) = outers'.map (own.input.read ·)) :
    ∃ own₁ c₁ own₂ c₂, (Gate.circuit own c).run outers = .circuit own₁ c₁ ∧
      (Gate.circuit own (c.modifyGate start fun _ => .function face name' f')).run outers' =
        .circuit own₂ c₂ ∧
      (∀ id l, c.links.get? id = some l →
        (∀ a d, l.source.node = .gate a → ¬c.Leads start d a) →
        ∃ l', c₁.links.get? id = some l' ∧ c₂.links.get? id = some l') ∧
      (∀ id g, c.gate? id = some g → (∀ d, ¬c.Leads start d id) →
        ∃ g', c₁.gate? id = some g' ∧ c₂.gate? id = some g') ∧
      ∀ id l a d, c.links.get? id = some l → l.source.node = .gate a →
        (∀ n, c.Leads start n a → d ≤ n) → outers.length ≤ d →
        ∃ l', c₁.links.get? id = some l' ∧ c₂.links.get? id = some l' := by
  obtain ⟨-, -, hs⟩ := Gate.sound_circuit_iff.mp hc.sound
  obtain ⟨hs', hsame⟩ := Circuit.SameBeyond.of_replaceGate hs hg name' f'
  obtain ⟨own₁, c₁, own₂, c₂, hrun, hrun', hsame⟩ := hsame.run hs hs' hreads
  rw [Nat.zero_add] at hsame
  have hlink : ∀ id l, c.links.get? id = some l →
      c.Beyond start outers.length l.source.node →
      ∃ l', c₁.links.get? id = some l' ∧ c₂.links.get? id = some l' := by
    intro id l hl hfar
    obtain ⟨l₁, hl₁, -⟩ := hsame.left.symm.get?_link hl
    exact ⟨l₁, hl₁, (hsame.link hl hfar).symm.trans hl₁⟩
  refine ⟨own₁, c₁, own₂, c₂, hrun, hrun', fun id l hl hno => ?_, fun id g hid hno => ?_,
    fun id l a d hl ha hd hlen => ?_⟩
  · exact hlink id l hl fun d a ha hd => absurd hd (hno a d ha)
  · have hne : id ≠ start := fun he => hno 0 (he ▸ .refl)
    have hmem : id ∈ c₁.gateIds := by
      rw [← hsame.left.gateIds]
      exact Entries.mem_keys_of_get? hid
    obtain ⟨g', hg'⟩ := Entries.mem_keys_iff.mp hmem
    have hfar : c.Beyond start outers.length (.gate id) := by
      intro d a ha hd
      cases ha
      exact absurd hd (hno d)
    exact ⟨g', hg', (hsame.gate hne hfar).symm.trans hg'⟩
  · refine hlink id l hl fun n a' ha' hn => ?_
    rw [ha] at ha'
    cases ha'
    exact Nat.le_trans hlen (hd n hn)

/-- The first inverter feeds the second, the second the boundary, and the third itself. -/
def Circuit.chain : Circuit Gate :=
  (Circuit.empty .empty).edited [
    .add .inverter, .add .inverter, .add .inverter,
    .connect ⟨.gate 0, []⟩ ⟨.gate 1, []⟩ (some .low),
    .connect ⟨.gate 1, []⟩ ⟨.boundary, []⟩ none,
    .connect ⟨.gate 2, []⟩ ⟨.gate 2, []⟩ none]

theorem Gate.reachable_chain :
    (Gate.circuit (.new "chain" ⟨default, default⟩) .chain).Reachable :=
  reachable_of_inverters "chain" .empty fun a ha => by simpa using ha

theorem Circuit.nodes_chain : chain.links.entries.map (fun e => (e.2.source.node, e.2.sink.node)) =
    [(.gate 0, .gate 1), (.gate 1, .boundary), (.gate 2, .gate 2)] := by decide

theorem Circuit.leads_chain {n : Nat} {a : GateId} (h : chain.Leads 0 n a) : a = n ∧ n ≤ 1 := by
  induction h with
  | refl => decide
  | @link n a b _ _ _ hl source sink ih =>
    have hnodes := List.mem_map_of_mem (f := fun e => (e.2.source.node, e.2.sink.node))
      (Entries.mem_of_get? hl)
    rw [nodes_chain, source, sink] at hnodes
    obtain ⟨rfl, hn⟩ := ih
    simp only [List.mem_cons, Prod.mk.injEq, Node.gate.injEq, List.not_mem_nil, or_false,
      reduceCtorEq, and_false, false_or] at hnodes
    obtain ⟨rfl, rfl⟩ | ⟨rfl, -⟩ := hnodes
    · exact ⟨rfl, Nat.le_refl 1⟩
    · exact absurd hn (by decide)

/-- Without its transform the first inverter gives nothing out. The second does not know of it
for a tick, and the third never does. -/
theorem influence_along_links_chain : ∃ face l g,
    Circuit.chain.gate? 0 = some (.function face "not" (Builtin.find? "not")) ∧
    ∃ own₁ c₁ own₂ c₂,
      (Gate.circuit (.new "chain" ⟨default, default⟩) .chain).run [.empty] = .circuit own₁ c₁ ∧
      (Gate.circuit (.new "chain" ⟨default, default⟩)
        (Circuit.chain.modifyGate 0 fun _ => .function face "lost" none)).run [.empty] =
        .circuit own₂ c₂ ∧
      c₁.links.get? 1 = some l ∧ c₂.links.get? 1 = some l ∧
      c₁.gate? 2 = some g ∧ c₂.gate? 2 = some g := by
  obtain ⟨own₁, c₁, own₂, c₂, hrun, hrun', -, hgate, hlink⟩ := @influence_along_links _ _
    Gate.reachable_chain 0 _ _ _ rfl "lost" none [.empty] [.empty] rfl
  have hthird : ∀ d, ¬Circuit.chain.Leads 0 d 2 := by
    intro d hd
    obtain ⟨rfl, hle⟩ := Circuit.leads_chain hd
    exact absurd hle (by decide)
  have hsecond : ∀ n, Circuit.chain.Leads 0 n 1 → 1 ≤ n := by
    intro n hn
    obtain ⟨rfl, -⟩ := Circuit.leads_chain hn
    exact Nat.le_refl 1
  obtain ⟨l, hl, hl'⟩ := hlink 1 _ 1 1 rfl rfl hsecond (Nat.le_refl 1)
  obtain ⟨g, hg, hg'⟩ := hgate 2 _ rfl hthird
  exact ⟨_, l, g, rfl, own₁, c₁, own₂, c₂, hrun, hrun', hl, hl', hg, hg'⟩

end TickCircuit
