import Mathlib.Data.Nat.ModEq
import Mathlib.Logic.Function.Iterate
import TickCircuit.Proofs.Gate.FreshBoundary
import TickCircuit.Proofs.Gate.Influence
import TickCircuit.Proofs.Gate.Relay
/-!
Rings of inverters, each of which feeds the next. In a tick every link gets what the link before it
carried, turned over (`Ring.ticked`). Main statement: so a ring oscillates, at any length and from
any seeds, and no gate in it ever has a fault (`ring_oscillates`).
-/
namespace TickCircuit

/-- The place that is `k` before place `j` in a ring of `n`. -/
def upstream (n j k : Nat) : Nat := (((j : Int) - k) % n).toNat

theorem cast_upstream {n : Nat} (hn : 0 < n) (j k : Nat) :
    (upstream n j k : Int) = ((j : Int) - k) % n :=
  Int.toNat_of_nonneg (Int.emod_nonneg _ (by omega))

theorem upstream_lt {n : Nat} (hn : 0 < n) (j k : Nat) : upstream n j k < n := by
  have hlt : ((j : Int) - k) % n < n := Int.emod_lt_of_pos _ (by omega)
  rw [← cast_upstream hn] at hlt
  omega

theorem upstream_upstream {n : Nat} (hn : 0 < n) (j a b : Nat) :
    upstream n (upstream n j a) b = upstream n j (a + b) := by
  rw [upstream, cast_upstream hn, Int.emod_sub_emod, upstream]
  congr 2
  omega

theorem upstream_one_add_one {n j : Nat} (hj : j < n) : (upstream n j 1 + 1) % n = j := by
  have hcast : ((upstream n j 1 + 1 : Nat) : Int) % n = j := by
    rw [Int.natCast_add, cast_upstream (by omega), Int.emod_add_emod, Int.sub_add_cancel]
    exact Int.emod_eq_of_lt (by omega) (by omega)
  omega

/-- What link `j` of a ring of `n` inverters carries after `k` ticks: first its seed, then what was
seeded `k` links before it, or low, turned over `k` times. -/
def turned (n : Nat) (seed : Nat → Option Value) : Nat → Nat → Option Value
  | 0, j => seed j
  | k + 1, j => some (Value.invert^[k + 1] ((seed (upstream n j (k + 1))).getD .low))

section
variable {n : Nat} {seed : Nat → Option Value}

theorem turned_succ (hn : 0 < n) (k j : Nat) : turned n seed (k + 1) j =
    some (Value.invert ((turned n seed k (upstream n j 1)).getD .low)) := by
  cases k with
  | zero => rfl
  | succ k =>
    rw [turned, turned, upstream_upstream hn, Nat.add_comm 1, Option.getD_some,
      Function.iterate_succ_apply']

theorem isBit_turned (hseed : ∀ j < n, ∀ v, seed j = some v → v.IsBit) (k : Nat) :
    ∀ j < n, ∀ v, turned n seed k j = some v → v.IsBit := by
  induction k with
  | zero => exact hseed
  | succ k ih =>
    intro j hj v hv
    have hn : 0 < n := by omega
    rw [turned_succ hn] at hv
    cases hv
    exact Relay.inverter.isBit_value (Value.isBit_getD (ih _ (upstream_lt hn j 1)))

end

namespace Circuit
variable {c : Circuit Gate} {n : Nat} {gate : Nat → GateId} {link : Nat → LinkId}

/-- The circuit has a ring of inverters, of the gates and links that are named. There may be more in
the circuit, but no other link leads to a gate of the ring. -/
structure Ring (c : Circuit Gate) (n : Nat) (gate : Nat → GateId) (link : Nat → LinkId) : Prop where
  relay : ∀ j < n, ∃ g, c.gate? (gate j) = some g ∧ g.Relays .inverter
  source : ∀ j < n, c.end? .output (link j) = some ⟨.gate (gate j), []⟩
  sink : ∀ j < n, ∀ id, c.end? .input id = some ⟨.gate (gate ((j + 1) % n)), []⟩ ↔ id = link j

/-- Each link that is named carries what is said, and will go on to. -/
def Bears (c : Circuit Gate) (n : Nat) (link : Nat → LinkId) (carried : Nat → Option Value) :
    Prop :=
  ∀ j < n, ∃ l, c.links.get? (link j) = some l ∧ l.current = carried j ∧ l.last = carried j

namespace Ring

theorem update_gate (h : c.Ring n gate link) (hc : c.Sound) {carried : Nat → Option Value}
    (hb : c.Bears n link carried) (hbits : ∀ j < n, ∀ v, carried j = some v → v.IsBit) {j : Nat}
    (hj : j < n) {g : Gate} (hg : c.gate? (gate j) = some g) :
    (g.update c.links).1 = g ∧
      g.emission c.links = some (Value.invert ((carried (upstream n j 1)).getD .low)) := by
  obtain ⟨g', hg', hr⟩ := h.relay j hj
  rw [hg] at hg'
  cases hg'
  -- the link that leads to gate `j` is the one before link `j`
  have hbefore : upstream n j 1 < n := upstream_lt (by omega) j 1
  have hid := h.sink _ hbefore
  rw [upstream_one_add_one hj] at hid
  obtain ⟨l, hl, -, hlast⟩ := hb _ hbefore
  rw [← hlast]
  exact hc.update_relay hg hr hid hl fun v hv => hbits _ hbefore v (hlast ▸ hv)

theorem ticked (h : c.Ring n gate link) (hc : c.Sound) {carried : Nat → Option Value}
    (hb : c.Bears n link carried) (hbits : ∀ j < n, ∀ v, carried j = some v → v.IsBit)
    (face : Face) (outer : LinkTable) : (c.ticked face outer).Ring n gate link ∧
      (c.ticked face outer).Bears n link fun j =>
        some (Value.invert ((carried (upstream n j 1)).getD .low)) := by
  refine ⟨⟨fun j hj => ?_, fun j hj => ?_, fun j hj id => ?_⟩, fun j hj => ?_⟩
  · obtain ⟨g, hg, hr⟩ := h.relay j hj
    refine ⟨g, ?_, hr⟩
    rw [gate?_ticked, hg, Option.map_some, (h.update_gate hc hb hbits hj hg).1]
  · rw [end?_ticked]
    exact h.source j hj
  · rw [end?_ticked]
    exact h.sink j hj id
  · obtain ⟨g, hg, -⟩ := h.relay j hj
    obtain ⟨l, hl, -⟩ := hb j hj
    have hsource := h.source j hj
    rw [end?, hl] at hsource
    have hemitted : c.emitted face outer (.gate (gate j)) =
        some (Value.invert ((carried (upstream n j 1)).getD .low)) := by
      rw [emitted, hg, Option.bind_some, (h.update_gate hc hb hbits hj hg).2]
    exact ⟨_, get?_ticked_of_emitted hl (Option.some.inj hsource) hemitted, rfl, rfl⟩

/-- What a ring carries goes around with every tick in which the circuit takes its input in. -/
theorem run_from (h : c.Ring n gate link) (hc : c.Sound) {seed : Nat → Option Value}
    (hseed : ∀ j < n, ∀ v, seed j = some v → v.IsBit) {k : Nat}
    (hb : c.Bears n link (turned n seed k)) {face : Face} {outers : List LinkTable}
    (htakes : ∀ t ∈ outers, c.TakesIn face t) :
    ∃ face' c', (Gate.circuit face c).run outers = .circuit face' c' ∧ c.Alike c' ∧
      c'.Ring n gate link ∧ c'.Bears n link (turned n seed (k + outers.length)) := by
  induction outers generalizing c face k with
  | nil => exact ⟨face, c, rfl, .refl c, h, hb⟩
  | cons t outers ih =>
    obtain ⟨face₁, c₁, he, hi, -, hcase⟩ := hc.update_circuit face t
    obtain ⟨-, rfl⟩ | ⟨hno, -⟩ := hcase
    · obtain ⟨hring, hnext⟩ := h.ticked hc hb (isBit_turned hseed k) face t
      obtain ⟨hs, halike, -⟩ := hc.ticked face t
      have hturned : (c.ticked face t).Bears n link (turned n seed (k + 1)) := by
        intro j hj
        rw [turned_succ (by omega)]
        exact hnext j hj
      have hrest : ∀ u ∈ outers, (c.ticked face t).TakesIn face₁ u := by
        intro u hu
        have htake := htakes u (List.mem_cons_of_mem _ hu)
        rw [TakesIn, ← hi] at htake
        exact htake
      obtain ⟨face', c', hrun, halike', hlast⟩ := ih hring hs hturned hrest
      refine ⟨face', c', ?_, halike.trans halike', ?_⟩
      · rw [Gate.run, List.foldl_cons, he]
        exact hrun
      · rwa [List.length_cons, Nat.add_comm outers.length, ← Nat.add_assoc]
    · exact absurd (htakes t List.mem_cons_self) hno

theorem run (h : c.Ring n gate link) (hc : c.Sound) {seed : Nat → Option Value}
    (hseed : ∀ j < n, ∀ v, seed j = some v → v.IsBit) (hb : c.Bears n link seed) {face : Face}
    {outers : List LinkTable} (htakes : ∀ t ∈ outers, c.TakesIn face t) :
    ∃ face' c', (Gate.circuit face c).run outers = .circuit face' c' ∧ c.Alike c' ∧
      c'.Ring n gate link ∧ c'.Bears n link (turned n seed outers.length) := by
  have hfirst : c.Bears n link (turned n seed 0) := hb
  have hrun := h.run_from hc hseed hfirst htakes
  rwa [Nat.zero_add] at hrun

theorem calm (h : c.Ring n gate link) {j : Nat} (hj : j < n) :
    ∃ g, c.gate? (gate j) = some g ∧ g.face.fault = none := by
  obtain ⟨g, hg, hr⟩ := h.relay j hj
  exact ⟨g, hg, hr.fault_eq_none⟩

end Ring

theorem takesIn_new (c : Circuit Gate) (name : String) (outer : LinkTable) :
    c.TakesIn (.new name ⟨default, default⟩) outer :=
  .inr ⟨none, rfl, fun v hv => by cases hv⟩

namespace Fresh

theorem update (h : c.Fresh) (hc : c.Sound) (name : String) (outer : LinkTable) :
    ((Gate.ofCircuit name c).update outer).1 =
      .ofCircuit name (c.ticked (.new name ⟨default, default⟩) outer) := by
  have hinput : c.innerInput = .new .output default := Option.some.inj (h .output)
  have houtput : c.innerOutput = .new .input default := Option.some.inj (h .input)
  have hp : c.pushed (.new name ⟨default, default⟩) outer = (c.links, .ok ()) := by
    rw [pushed, hinput]
    rfl
  have hpulled : ((c.ticked (.new name ⟨default, default⟩) outer).pulled
      (.new name ⟨default, default⟩) outer).2 = .ok () := by
    rw [pulled, show (c.ticked _ outer).innerOutput = c.innerOutput from rfl, houtput]
    rfl
  rw [Gate.ofCircuit, Gate.update_circuit_of_ok hp, hc.advanced_eq hp, hpulled]
  rfl

theorem run (h : c.Fresh) (hc : c.Sound) (name : String) (outers : List LinkTable) :
    ∃ c', (Gate.ofCircuit name c).run outers = .ofCircuit name c' := by
  induction outers generalizing c with
  | nil => exact ⟨c, rfl⟩
  | cons t outers ih =>
    have hnext : (c.ticked (.new name ⟨default, default⟩) t).Fresh := fun d => by
      cases d
      · exact h .input
      · exact h .output
    rw [Gate.run, List.foldl_cons, h.update hc]
    exact ih hnext (hc.ticked _ t).1

end Fresh

def ringLink (n : Nat) (seed : Nat → Option Value) (j : Nat) : Edit :=
  .connect ⟨.gate j, []⟩ ⟨.gate ((j + 1) % n), []⟩ (seed j)

/-- A new circuit with a ring of inverters in it: first the gates are added, and then the links. -/
def ringOf (registry : Registry) (n : Nat) (seed : Nat → Option Value) : Circuit Gate :=
  (empty registry).edited
    (List.replicate n (.add .inverter) ++ (List.range n).map (ringLink n seed))

/-- A circuit of `n` inverters of which the first `m` are linked to the next. -/
structure Wound (n m : Nat) (seed : Nat → Option Value) (c : Circuit Gate) : Prop where
  sound : c.Sound
  fresh : c.Fresh
  gateIds : c.gateIds = List.range n
  nextGate : c.nextGate = n
  relay : ∀ j < n, ∃ g, c.gate? j = some g ∧ g.Relays .inverter
  types : ∀ j < n, ∀ d, c.interface? d (.gate j) = some (.bit none)
  nextId : c.links.nextId = m
  links : ∀ j : Nat, c.links.get? j = if j < m then
    some (.seeded ⟨.gate j, []⟩ ⟨.gate ((j + 1) % n), []⟩ (.bit none) (seed j)) else none

namespace Wound
variable {m : Nat} {seed : Nat → Option Value}

theorem empty (registry : Registry) (seed : Nat → Option Value) :
    Wound 0 0 seed (.empty registry) where
  sound := sound_empty registry
  fresh := fresh_empty registry
  gateIds := rfl
  nextGate := rfl
  relay j hj := by omega
  types j hj := by omega
  nextId := rfl
  links j := by
    rw [if_neg (Nat.not_lt_zero j)]
    rfl

theorem add (h : Wound n 0 seed c) : Wound (n + 1) 0 seed (c.add .inverter) := by
  have hport : ∀ d j, (c.add .inverter).port? d j =
      if j = .gate n then some (Gate.inverter.port d) else c.port? d j := by
    intro d j
    rw [port?_add, h.nextGate]
  obtain ⟨hsound, hfree⟩ : Gate.inverter.Sound ∧ Gate.inverter.Unlinked :=
    ⟨Gate.inverter_usable.1.sound, Gate.inverter_usable.2⟩
  exact {
    sound := h.sound.add hsound hfree
    fresh := fun d => by
      rw [hport, if_neg (by simp)]
      exact h.fresh d
    gateIds := by
      rw [Circuit.gateIds, h.sound.wired.gates_add, Entries.keys_append, ← Circuit.gateIds,
        h.gateIds, h.nextGate, List.range_succ]
      rfl
    nextGate := congrArg (· + 1) h.nextGate
    relay := fun j hj => by
      rw [gate?, Circuit.add, Entries.get?_put, h.nextGate]
      split
      · exact ⟨.inverter, rfl, ⟨rfl⟩, fun d => by cases d <;> rfl⟩
      next hne =>
        have hlt : j < n := Nat.lt_of_le_of_ne (Nat.le_of_lt_succ hj) (Ne.symm hne)
        exact h.relay j hlt
    types := fun j hj d => by
      rw [interface?, hport]
      split
      · cases d <;> rfl
      next hne =>
        have hlt : j < n := by
          have hj' : j ≠ n := fun he => hne (congrArg Node.gate he)
          omega
        exact h.types j hlt d
    nextId := h.nextId
    links := h.links }

theorem end?_eq (h : Wound n m seed c) (d : Direction) (j : Nat) : c.end? d j = if j < m then
    some (Link.endAt (.seeded ⟨.gate j, []⟩ ⟨.gate ((j + 1) % n), []⟩ (.bit none) (seed j)) d)
    else none := by
  rw [end?, h.links]
  split <;> rfl

theorem eq_of_end? (h : Wound n m seed c) (hm : m ≤ n) {i j : Nat} (hi : i < n) {path : Path}
    (he : c.end? .input j = some ⟨.gate ((i + 1) % n), path⟩) : j < m ∧ j = i := by
  rw [h.end?_eq] at he
  split at he
  next hj =>
    have hnode := Node.gate.inj (congrArg Endpoint.node (Option.some.inj he))
    have hsame : j ≡ i [MOD n] := Nat.ModEq.add_right_cancel' 1 hnode
    exact ⟨hj, hsame.eq_of_lt_of_lt (Nat.lt_of_lt_of_le hj hm) hi⟩
  next => cases he

theorem connect (h : Wound n m seed c) (hm : m < n) (hseed : ∀ v, seed m = some v → v.IsBit) :
    Wound n (m + 1) seed
      (c.connect ⟨.gate m, []⟩ ⟨.gate ((m + 1) % n), []⟩ (seed m)).1 := by
  have hw := h.sound.wired
  -- the links that are there lead to other gates
  have hfree : ∀ id path, c.end? .input id ≠ some ⟨.gate ((m + 1) % n), path⟩ := by
    intro id path he
    obtain ⟨hlt, heq⟩ := h.eq_of_end? hm.le hm he
    exact absurd heq (Nat.ne_of_lt hlt)
  have haccepts : ∀ v, seed m = some v → (Interface.bit none).accepts v = true :=
    fun v hv => Interface.accepts_bit rfl (hseed v hv)
  have hnext : (m + 1) % n < n := Nat.mod_lt _ (by omega)
  have hj := hw.joins_of_free (h.types m hm .output) (h.types _ hnext .input) rfl hfree haccepts
  have hsound := h.sound.connect ⟨.gate m, []⟩ ⟨.gate ((m + 1) % n), []⟩ (seed m)
  rw [connect_of_joins hw.shaped hj] at hsound ⊢
  exact {
    sound := hsound
    fresh := fun d => by
      have hport := h.fresh d
      rw [port?_withLink, hport, Option.map_some, if_neg]
      cases d <;> simp [Link.endAt, Link.seeded]
    gateIds := (gateIds_withLink c _).trans h.gateIds
    nextGate := (nextGate_withLink c _).trans h.nextGate
    relay := fun j hj' => by
      obtain ⟨g, hg, hr⟩ := h.relay j hj'
      obtain ⟨g', hg', hworks⟩ := exists_gate_withLink (Gate.portBlind_works _) hg hr.works _
      exact ⟨g', hg', relays_of_same_types hg hr hg' hworks fun d =>
        hw.interface?_withLink hj d (.gate j)⟩
    types := fun j hj' d => (hw.interface?_withLink hj d (.gate j)).trans (h.types j hj' d)
    nextId := by rw [hw.links_withLink, h.nextId]
    links := fun j => by
      rw [hw.get?_withLink, h.nextId, h.links]
      by_cases hjm : j = m
      · rw [if_pos hjm, if_pos (by omega), hjm]
      · rw [if_neg hjm]
        congr 1
        exact propext (by omega) }

theorem ring (h : Wound n n seed c) : c.Ring n id id ∧ c.Bears n id seed := by
  refine ⟨⟨h.relay, fun j hj => ?_, fun j hj i => ⟨fun he => ?_, fun he => ?_⟩⟩, fun j hj => ?_⟩
  · exact (h.end?_eq .output j).trans (if_pos hj)
  · exact (h.eq_of_end? (Nat.le_refl n) hj he).2
  · rw [he]
    exact (h.end?_eq .input j).trans (if_pos hj)
  · exact ⟨_, (h.links j).trans (if_pos hj), rfl, rfl⟩

end Wound

theorem wound_ringOf (registry : Registry) {seed : Nat → Option Value}
    (hseed : ∀ j < n, ∀ v, seed j = some v → v.IsBit) :
    Wound n n seed (ringOf registry n seed) := by
  have hadds : ∀ k, Wound k 0 seed ((empty registry).edited (.replicate k (.add .inverter))) := by
    intro k
    induction k with
    | zero => exact .empty registry seed
    | succ k ih =>
      rw [List.replicate_succ', edited_concat]
      exact ih.add
  have hlinks : ∀ m ≤ n, Wound n m seed ((empty registry).edited
      (.replicate n (.add .inverter) ++ (List.range m).map (ringLink n seed))) := by
    intro m hm
    induction m with
    | zero => exact List.append_nil _ ▸ hadds n
    | succ m ih =>
      have hlt : m < n := hm
      rw [List.range_succ, List.map_append, List.map_singleton, ← List.append_assoc, edited_concat,
        ringLink, Edit.run_connect]
      exact (ih hlt.le).connect hlt (hseed m hlt)
  exact hlinks n (Nat.le_refl n)

end Circuit

theorem Gate.reachable_ringOf (name : String) (registry : Registry) (n : Nat)
    (seed : Nat → Option Value) : (Gate.ofCircuit name (.ringOf registry n seed)).Reachable := by
  refine reachable_of_inverters name registry fun a ha => ?_
  obtain hadd | hlink := List.mem_append.mp ha
  · exact Edit.add.inj (List.eq_of_mem_replicate hadd)
  · obtain ⟨j, -, he⟩ := List.mem_map.mp hlink
    cases he

/-- A ring of inverters of any length oscillates, from whatever its links are seeded with. After `k`
ticks each link carries what was seeded `k` links before it, turned over `k` times, where a link
without a seed counts as low, and no gate has a fault. It is so of the ring in a new circuit, and of
every ring in a circuit that takes its input in. -/
theorem ring_oscillates {n : Nat} {seed : Nat → Option Value}
    (hseed : ∀ j < n, ∀ v, seed j = some v → v.IsBit) :
    (∀ registry name, (Gate.ofCircuit name (.ringOf registry n seed)).Reachable ∧
      (Circuit.ringOf registry n seed).gateIds = List.range n ∧
      (Circuit.ringOf registry n seed).Ring n id id ∧
      (Circuit.ringOf registry n seed).Bears n id seed ∧
      ∀ outers, ∃ c, (Gate.ofCircuit name (.ringOf registry n seed)).run outers =
        .ofCircuit name c ∧ c.gateIds = List.range n ∧
        (∀ id g, c.gate? id = some g → g.face.fault = none) ∧
        c.Bears n id (turned n seed outers.length)) ∧
    ∀ {own : Face} {c : Circuit Gate} {gate : Nat → GateId} {link : Nat → LinkId},
      (Gate.circuit own c).Reachable → c.Ring n gate link → c.Bears n link seed →
      ∀ face outers, (∀ t ∈ outers, c.TakesIn face t) →
      ∃ face' c', (Gate.circuit face c).run outers = .circuit face' c' ∧
        (∀ j < n, ∃ g, c'.gate? (gate j) = some g ∧ g.face.fault = none) ∧
        c'.Bears n link (turned n seed outers.length) := by
  constructor
  · intro registry name
    have hw := Circuit.wound_ringOf registry hseed
    obtain ⟨hring, hbears⟩ := hw.ring
    refine ⟨Gate.reachable_ringOf name registry n seed, hw.gateIds, hring, hbears, fun outers => ?_⟩
    obtain ⟨c, hfresh⟩ := hw.fresh.run hw.sound name outers
    obtain ⟨face', c', hrun, halike, hring', hbears'⟩ := hring.run hw.sound hseed hbears fun t _ =>
      Circuit.takesIn_new (.ringOf registry n seed) name t
    cases hfresh.symm.trans hrun
    have hids : c.gateIds = List.range n := halike.gateIds.symm.trans hw.gateIds
    refine ⟨c, hfresh, hids, fun j g hg => ?_, hbears'⟩
    have hj : j ∈ List.range n := hids ▸ Entries.mem_keys_of_get? hg
    obtain ⟨g', hg', hfault⟩ := hring'.calm (List.mem_range.mp hj)
    cases hg.symm.trans hg'
    exact hfault
  · intro own c gate link hc hring hbears face outers htakes
    obtain ⟨-, -, hs⟩ := Gate.sound_circuit_iff.mp hc.sound
    obtain ⟨face', c', hrun, -, hring', hbears'⟩ := hring.run hs hseed hbears htakes
    exact ⟨face', c', hrun, fun j hj => hring'.calm hj, hbears'⟩

def firstHigh : Nat → Option Value
  | 0 => some .high
  | _ + 1 => none

/-- The links without a seed count as low. So after one tick all but the second are high, and after
two ticks the third alone is. -/
theorem ring_oscillates_three :
    (∃ c, (Gate.ofCircuit "ring" (.ringOf .empty 3 firstHigh)).run [.empty, .empty] =
      .ofCircuit "ring" c ∧ ∃ l, c.links.get? 2 = some l ∧ l.last = some .high) ∧
    ∃ face c, (Gate.circuit (.new "ring" ⟨default, default⟩) (.ringOf .empty 3 firstHigh)).run
      [.empty] = .circuit face c ∧ ∃ l, c.links.get? 1 = some l ∧ l.last = some .low := by
  have hseed : ∀ j < 3, ∀ v, firstHigh j = some v → v.IsBit := by
    intro j _ v hv
    cases j with
    | zero =>
      cases hv
      exact ⟨none, true, rfl⟩
    | succ j => cases hv
  obtain ⟨hnew, hany⟩ := ring_oscillates hseed
  obtain ⟨hreachable, -, hring, hbears, hrun⟩ := hnew .empty "ring"
  obtain ⟨c, hc, -, -, hafter⟩ := hrun [.empty, .empty]
  obtain ⟨l, hl, -, hlast⟩ := hafter 2 (by decide)
  obtain ⟨face, c', hc', -, hafter'⟩ :=
    hany hreachable hring hbears (.new "ring" ⟨default, default⟩) [.empty] fun t _ =>
      Circuit.takesIn_new _ _ t
  obtain ⟨l', hl', -, hlast'⟩ := hafter' 1 (by decide)
  exact ⟨⟨c, hc, l, hl, hlast⟩, face, c', hc', l', hl', hlast'⟩

end TickCircuit
