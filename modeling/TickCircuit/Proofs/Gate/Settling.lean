import TickCircuit.Proofs.Gate.Influence
import TickCircuit.Proofs.Gate.LinkType
import TickCircuit.Proofs.Interface.Absorption
import TickCircuit.Proofs.Port.Inference
/-!
Resolving a boundary that has just been resolved. A second time the types come from links whose ends
may have been retyped the first time. Main statement: nothing changes any more, unless a link that
leads straight through the circuit decides the type at one of its ends only and has another type by
now (`resolved_again_iff`).
-/
namespace TickCircuit
namespace Circuit
variable {c c' : Circuit Gate}

/-- The type at a place of the boundary is taken from the link, which is the first one there, with
none above. -/
def Decides (c : Circuit Gate) (id : LinkId) (d : Direction) (path : Path) : Prop :=
  ∃ p, c.port? d .boundary = some p ∧ p.decider? path = some (id, [])

/-- Wiring can still change the type at a place of the boundary. -/
def IsOpen (c : Circuit Gate) (d : Direction) (path : Path) : Prop :=
  ∃ t, c.typeAt? d ⟨.boundary, path⟩ = some t ∧ ¬ t.isFinal

theorem Wired.end?_of_decides (h : c.Wired) {id : LinkId} {d : Direction} {path : Path}
    (hd : c.Decides id d path) : c.end? d id = some ⟨.boundary, path⟩ := by
  obtain ⟨p, hp, hd⟩ := hd
  obtain ⟨above, hpath, hid⟩ := deciding_mem hd
  rw [List.append_nil] at hpath
  cases hpath
  exact (h.mem_linksAt_iff hp).mp hid

theorem typeAt?_of_retyped {d : Direction} {p : Port} {i : Interface}
    (h : c.port? d .boundary = some (p.retyped i)) (path : Path) :
    c.typeAt? d ⟨.boundary, path⟩ = i.childAt? path := by
  rw [typeAt?, interface?, h, Option.map_some, Option.bind_eq_bind, Option.bind_some,
    Port.interface_retyped]

/-- The boundary of `c'` has the types that were inferred for that of `c`. -/
structure Infers (c c' : Circuit Gate) : Prop where
  gates : c'.gates = c.gates
  links : c'.links = c.links
  boundary : ∀ d, ∃ p i, c.port? d .boundary = some p ∧ p.inferred c.linkType = .ok i ∧
    p.checkRetype i = .ok () ∧ c'.port? d .boundary = some (p.retyped i)

namespace Infers

theorem typeAt?_boundary (h : c.Infers c') (hc : c.Wired) {id : LinkId} {d : Direction}
    {path : Path} (hd : c'.Decides id d path) {t : Interface}
    (ht : c'.typeAt? d ⟨.boundary, path⟩ = some t) :
    c.linkType id = .ok t ∨ t.isFinal ∧ c.typeAt? d ⟨.boundary, path⟩ = some t := by
  obtain ⟨p, i, hp, hi, hcheck, hq⟩ := h.boundary d
  obtain ⟨q, hq', hd⟩ := hd
  cases hq.symm.trans hq'
  rw [typeAt?_of_retyped hq] at ht
  rw [Port.decider?_retyped hcheck] at hd
  obtain ⟨u, hu, htu⟩ | ⟨above, u, hpath, hfinal, hold, htu⟩ :=
    (hc.shaped hp).inferred_decider hi hd
  · cases ht.symm.trans htu
    exact .inl hu
  · rw [List.append_nil] at hpath
    cases hpath
    cases ht.symm.trans htu
    refine .inr ⟨hfinal, ?_⟩
    rw [typeAt?, interface?, hp]
    exact hold

/-- A link has its type again if it decides where it meets the boundary. -/
theorem linkType_eq (h : c.Infers c') (hc : c.Wired) (hc' : c'.Wired) {id : LinkId} {m : Interface}
    (hm : c.linkType id = .ok m)
    (hends : ∀ d path, c'.end? d id = some ⟨.boundary, path⟩ → c'.Decides id d path) :
    c'.linkType id = .ok m := by
  cases hl : c.links.get? id with
  | none =>
    rw [linkType, hl] at hm
    cases hm
  | some l =>
    have hl' : c'.links.get? id = some l := h.links ▸ hl
    obtain ⟨s, hs⟩ := hc.typeAt?_end hl .output
    obtain ⟨t, ht⟩ := hc.typeAt?_end hl .input
    obtain ⟨s', hs'⟩ := hc'.typeAt?_end hl' .output
    obtain ⟨t', ht'⟩ := hc'.typeAt?_end hl' .input
    rw [hc.linkType_eq hl hs ht, mapError_eq_ok] at hm
    rw [hc'.linkType_eq hl' hs' ht', mapError_eq_ok]
    -- the type at either end is as it was, or is that of the link
    have hend : ∀ {d i i'}, c.typeAt? d (l.endAt d) = some i → c'.typeAt? d (l.endAt d) = some i' →
        i' = i ∨ i' = m := by
      intro d i i' hi hi'
      by_cases hn : (l.endAt d).node = .boundary
      · have hat : l.endAt d = ⟨.boundary, (l.endAt d).path⟩ := by rw [← hn]
        have hdecides : c'.Decides id d (l.endAt d).path :=
          hends d _ (by rw [end?, hl', ← hat]; rfl)
        rw [hat] at hi hi'
        obtain hf | ⟨-, hold⟩ := h.typeAt?_boundary hc hdecides hi'
        · rw [hc.linkType_eq hl hs ht, mapError_eq_ok, hm] at hf
          exact .inr (Except.ok.inj hf).symm
        · exact .inl (Option.some.inj (hold.symm.trans hi))
      · rw [typeAt?_of_gates h.gates d hn, hi] at hi'
        exact .inl (Option.some.inj hi').symm
    obtain ⟨hleft, hright⟩ := Interface.merge_absorbs hm
    obtain rfl | rfl := hend (d := .output) hs hs'
    · obtain rfl | rfl := hend (d := .input) ht ht'
      · exact hm
      · exact hleft
    · obtain rfl | rfl := hend (d := .input) ht ht'
      · exact hright
      · exact Interface.merge_self _

theorem inferred_again_iff (h : c.Infers c') :
    (∀ d p, c'.port? d .boundary = some p → p.inferred c'.linkType = .ok p.interface) ↔
      ∀ id d path, c'.Decides id d path → c'.IsOpen d path → c'.linkType id = c.linkType id := by
  constructor
  · intro hagain id d path hd hopen
    obtain ⟨p, i, hp, hi, hcheck, hq⟩ := h.boundary d
    obtain ⟨q, hq', hd⟩ := hd
    obtain ⟨t, ht, hopen⟩ := hopen
    cases hq.symm.trans hq'
    have hinferred := hagain d _ hq
    rw [Port.interface_retyped] at hinferred
    rw [typeAt?_of_retyped hq] at ht
    rw [Port.decider?_retyped hcheck] at hd
    exact (Port.inferred_retyped_iff hi).mp hinferred path id t hd ht hopen
  · intro hsame d q hq'
    obtain ⟨p, i, hp, hi, hcheck, hq⟩ := h.boundary d
    cases hq.symm.trans hq'
    rw [Port.interface_retyped]
    refine (Port.inferred_retyped_iff hi).mpr fun path id t hd ht hopen => hsame id d path ?_ ?_
    · exact ⟨_, hq, (Port.decider?_retyped hcheck path).trans hd⟩
    · exact ⟨t, (typeAt?_of_retyped hq path).trans ht, hopen⟩

end Infers
end Circuit

namespace Gate
variable {face face' : Face} {c c' : Circuit Gate}

/-- Resolving the boundary succeeds, and all four ports at it stay as they are. -/
def Stays (face : Face) (c : Circuit Gate) : Prop :=
  ∃ face' c', (Gate.circuit face c).resolve = (.circuit face' c', .ok ()) ∧
    face'.input = face.input ∧ face'.output = face.output ∧
    c'.innerInput = c.innerInput ∧ c'.innerOutput = c.innerOutput

/-- A boundary stays as it is just when its types are those that are inferred for it. -/
theorem Sound.stays_iff (h : (Gate.circuit face c).Sound) : Stays face c ↔
    ∀ d p, c.port? d .boundary = some p → p.inferred c.linkType = .ok p.interface := by
  obtain ⟨hshaped, hmatches, hc⟩ := sound_circuit_iff.mp h
  constructor
  · rintro ⟨face', c', hr, -, -, hinner, houter⟩
    obtain ⟨i, o, hi, ho, hb⟩ := resolved_types hr
    obtain ⟨-, -, -, -, he⟩ := setBoundary_eq_ok.mp hb
    cases he
    have hin : c.innerInput.interface = i := by
      rw [← hinner]
      exact Port.interface_retyped i _
    have hout : c.innerOutput.interface = o := by
      rw [← houter]
      exact Port.interface_retyped o _
    intro d p hp
    cases d with
    | output =>
      cases hp
      rw [hi, hin]
    | input =>
      cases hp
      rw [ho, hout]
  · intro hinferred
    have hi := hinferred .output _ rfl
    have ho := hinferred .input _ rfl
    have hinner := hc.wired.shaped (d := .output) (n := .boundary) rfl
    have houter := hc.wired.shaped (d := .input) (n := .boundary) rfl
    have hin : face.input.Shaped .input := hshaped .input
    have hout : face.output.Shaped .output := hshaped .output
    refine ⟨face, c, resolve_iff.mpr ⟨c.innerInput.interface, c.innerOutput.interface, ?_,
      setBoundary_eq_ok.mpr ⟨?_, hinner.checkRetype_self, ?_, houter.checkRetype_self, ?_⟩⟩,
      rfl, rfl, rfl, rfl⟩
    · rw [Circuit.boundaryTypes, hi, ho]
      rfl
    · rw [← hmatches.input]
      exact hin.checkRetype_self
    · rw [← hmatches.output]
      exact hout.checkRetype_self
    · rw [hinner.retyped_self, houter.retyped_self, ← hmatches.input, ← hmatches.output,
        hin.retyped_self, hout.retyped_self]

theorem infers_resolve (h : (Gate.circuit face c).resolve = (.circuit face' c', .ok ())) :
    c.Infers c' := by
  obtain ⟨i, o, hi, ho, hb⟩ := resolved_types h
  obtain ⟨-, hci, -, hco, he⟩ := setBoundary_eq_ok.mp hb
  cases he
  refine ⟨rfl, rfl, fun d => ?_⟩
  cases d with
  | output => exact ⟨_, i, rfl, hi, hci, rfl⟩
  | input => exact ⟨_, o, rfl, ho, hco, rfl⟩

end Gate

/-- Resolving a boundary twice. The second time succeeds and changes no port just when every link
that leads straight through the circuit, and decides the type at an open place at one of its ends
but not the one at the other, has the type that it had before the first time. -/
theorem resolved_again_iff {face face' : Face} {c c' : Circuit Gate}
    (hg : (Gate.circuit face c).Reachable)
    (h : (Gate.circuit face c).resolve = (.circuit face' c', .ok ())) :
    Gate.Stays face' c' ↔
      ∀ id d path path', c'.Decides id d path → c'.IsOpen d path →
        c'.end? d.opposite id = some ⟨.boundary, path'⟩ → ¬ c'.Decides id d.opposite path' →
        c'.linkType id = c.linkType id := by
  obtain ⟨hshaped, -, hc⟩ := Gate.sound_circuit_iff.mp hg.sound
  obtain ⟨i, o, hb⟩ := Gate.resolve_eq_ok h
  obtain ⟨hsound, -⟩ := Gate.sound_setBoundary hshaped hc hb
  obtain ⟨-, -, hc'⟩ := Gate.sound_circuit_iff.mp hsound
  have hinfers := Gate.infers_resolve h
  rw [hsound.stays_iff, hinfers.inferred_again_iff]
  constructor
  · intro hsame id d path path' hd hopen _ _
    exact hsame id d path hd hopen
  · intro hsame id d path hd hopen
    by_cases hstraight : ∃ path', c'.end? d.opposite id = some ⟨.boundary, path'⟩ ∧
        ¬ c'.Decides id d.opposite path'
    · obtain ⟨path', hend, hno⟩ := hstraight
      exact hsame id d path path' hd hopen hend hno
    · -- it decides wherever it meets the boundary
      obtain ⟨t, ht, hnot⟩ := hopen
      obtain hm | ⟨hfinal, -⟩ := hinfers.typeAt?_boundary hc.wired hd ht
      · rw [hm]
        refine hinfers.linkType_eq hc.wired hc'.wired hm fun e path' he => ?_
        obtain rfl | rfl : e = d ∨ e = d.opposite := by
          cases d <;> cases e <;> simp [Direction.opposite]
        · rw [hc'.wired.end?_of_decides hd] at he
          cases he
          exact hd
        · exact Classical.byContradiction fun hno => hstraight ⟨path', he, hno⟩
      · exact absurd hfinal hnot

/-- An inverter that is fed from the boundary, and a link straight through, which is made before the
other link or after it. -/
def Circuit.bypass (first : Bool) : Circuit Gate :=
  let inward : Edit := .connect ⟨.boundary, []⟩ ⟨.gate 0, []⟩ none
  let straight : Edit := .connect ⟨.boundary, []⟩ ⟨.boundary, []⟩ none
  (Circuit.empty .empty).edited
    (.add .inverter :: if first then [straight, inward] else [inward, straight])

def Gate.bypass (first : Bool) : Gate := .circuit (.new "bypass" ⟨default, default⟩) (.bypass first)

theorem Gate.reachable_bypass (first : Bool) : (Gate.bypass first).Reachable :=
  reachable_of_inverters "bypass" .empty fun a ha => by cases first <;> simpa using ha

/-- The straight link decides at both ends where it is the first one. -/
theorem resolved_again_bypass : ∃ face c, (Gate.bypass true).resolve = (.circuit face c, .ok ()) ∧
    Gate.Stays face c := by
  refine ⟨_, _, rfl, (resolved_again_iff (Gate.reachable_bypass true) rfl).mpr ?_⟩
  intro id d path path' hd _ hend hno
  obtain ⟨p, hp, hd⟩ := hd
  cases d with
  | output | input =>
    cases hp
    rw [Port.decider?_of_link rfl] at hd
    cases hd
    cases hend
    exact absurd ⟨_, rfl, rfl⟩ hno

/-- Where the straight link comes second it decides the type of the output alone, which is not known
to be a bit until the input is. -/
theorem resolved_twice_bypass : (Gate.bypass false).Reachable ∧ ∃ face c face' c',
    (Gate.bypass false).resolve = (.circuit face c, .ok ()) ∧
    (Gate.circuit face c).resolve = (.circuit face' c', .ok ()) ∧
    face.output.interface = .any none ∧ c.innerOutput.interface = .any none ∧
    face'.output.interface = .bit none ∧ c'.innerOutput.interface = .bit none :=
  ⟨Gate.reachable_bypass false, _, _, _, _, rfl, rfl, rfl, rfl, rfl, rfl⟩

end TickCircuit
