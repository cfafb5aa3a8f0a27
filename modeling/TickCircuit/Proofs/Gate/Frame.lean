import TickCircuit.Proofs.Gate.Rollback
/-!
What an update leaves alone. Main statement: of the table around a gate only the current values of
the links at its output change, and none of them where the update ends in a fault (`update_frame`).
-/
namespace TickCircuit
namespace Gate

theorem mem_allLinks_of_writes {g : Gate} {t : LinkTable} {id : LinkId} {v : Value}
    (h : (id, v) ∈ g.writes t) : id ∈ g.output.allLinks := by
  rw [writes] at h
  cases he : g.emission t with
  | none => simp [he] at h
  | some w =>
    rw [he, Option.elim_some, Port.mem_delivery] at h
    obtain ⟨path, hid, -⟩ := h
    exact Port.mem_allLinks.mpr ⟨path, hid⟩

theorem not_accepts_of_write_error {p : Port} (hp : p.Shaped .output) {v : Value} {t : LinkTable}
    {e : Fault} (h : (p.write v t).2 = .error e) : p.interface.accepts v = false := by
  cases ha : p.interface.accepts v with
  | false => rfl
  | true =>
    rw [Port.write_eq hp ha] at h
    cases h

theorem accepted_of_writeOutput_error {face : Face} (hp : face.output.Shaped .output)
    {v : Option Value} {t : LinkTable} {e : Fault} (h : (writeOutput face v t).2 = .error e) :
    face.accepted v = none := by
  unfold writeOutput at h
  split at h
  · cases h
  · cases v with
    | none => rfl
    | some v =>
      have hv := not_accepts_of_write_error hp h
      simp [Face.accepted, Option.filter, hv]

theorem accepted_of_pulled_error {face : Face} (hp : face.output.Shaped .output)
    {c : Circuit Gate} {t : LinkTable} {e : Fault} (h : (c.pulled face t).2 = .error e) :
    (c.innerOutput.read c.links).toOption.bind face.accepted = none := by
  unfold Circuit.pulled at h
  split at h
  · cases h
  · rcases hr : c.innerOutput.read c.links with e | _ | v
    · rfl
    · rfl
    · rw [hr] at h
      have hv := not_accepts_of_write_error hp h
      simp [Except.toOption, Face.accepted, Option.filter, hv]

theorem fault_withFault (face : Face) (r : Except Fault Unit) {e : Fault} :
    (withFault face r).fault = some e ↔ r = .error e := by
  cases r <;> simp [withFault]

theorem emission_of_fault {g : Gate} (hg : g.PortsShaped) {t : LinkTable} {e : Fault}
    (h : (g.update t).1.face.fault = some e) : g.emission t = none := by
  have ho : g.face.output.Shaped .output := hg .output
  cases g with
  | function face name transform =>
    simp only [update, Gate.face, fault_withFault, applyTransform] at h
    simp only [emission]
    cases hv : readInput face t with
    | error e => rfl
    | ok v =>
      cases transform with
      | none => rfl
      | some f =>
        rw [hv] at h
        dsimp only at h ⊢
        rcases hr : f.run v with ⟨f', e | w⟩
        · rfl
        · rw [hr] at h
          exact accepted_of_writeOutput_error ho h
  | circuit face c =>
    simp only [emission]
    rcases hp : c.pushed face t with ⟨links, e | ⟨⟩⟩
    · rfl
    · rw [update_circuit_of_ok hp] at h
      exact accepted_of_pulled_error ho ((fault_withFault face _).mp h)

end Gate

/-- An update changes nothing but the current values of the links at the output of the gate, and
where it ends in a fault not even those. The gate may compute what it likes: of its state only the
ports matter. -/
theorem update_frame {g₀ g : Gate} (hg : g₀.Reachable) (hports : ∀ d, g.port d = g₀.port d)
    (outer : LinkTable) :
    (g.update outer).2.stale = outer.stale ∧
    (∀ id, id ∉ g.output.allLinks → (g.update outer).2.get? id = outer.get? id) ∧
    ∀ e, (g.update outer).1.face.fault = some e → (g.update outer).2 = outer := by
  have hs := hg.sound.shaped.of_port_eq hports
  have hsnd := Gate.update_snd hs outer
  refine ⟨?_, fun id hid => ?_, fun e he => ?_⟩
  · rw [hsnd, LinkTable.stale_writeEach]
  · rw [hsnd]
    exact LinkTable.get?_writeEach_of_not_mem
      (fun v hv => hid (Gate.mem_allLinks_of_writes hv)) outer
  · rw [hsnd, Gate.writes, Gate.emission_of_fault hs he]
    rfl

/-- A transform that yields a pair of which the second half is no bit. -/
def Gate.lopsided : Gate :=
  .ofTransform "pair" ⟨.none none, .collection none [.bit none, .bit none]⟩ "pair"
    (some (.pure fun _ => .ok (some (.collection none [.bit none true, .collection none []]))))

theorem update_frame_lopsided : ∃ s, Simulation.new Gate.lopsided = .ok s ∧
    s.root.output.allLinks = [Simulation.outputLink] ∧
    (∃ e, (s.root.update s.links).1.face.fault = some e) ∧ (s.root.update s.links).2 = s.links := by
  refine ⟨_, rfl, rfl, ⟨_, rfl⟩, ?_⟩
  have hroot := (Gate.Reachable.transform "pair" _ "pair" _).driven (g := Gate.lopsided) rfl
  obtain ⟨-, -, h⟩ := update_frame hroot (fun _ => rfl) _
  exact h _ rfl

end TickCircuit
