import TickCircuit.Proofs.Gate.Consistent
/-!
What is left of an insertion that fails. Links, ports and the gates that were there are restored;
the gates that were made go too, but for those whose id the description gives again to a later one
(`insert_undone`).
-/
namespace TickCircuit

/-- Gates, links and boundary are as they were; the counters of ids need not be. -/
def Circuit.Restores (c c' : Circuit Gate) : Prop :=
  c'.gates = c.gates ∧ c'.links.entries = c.links.entries ∧ c'.innerInput = c.innerInput ∧
    c'.innerOutput = c.innerOutput

theorem Circuit.Enlarged.restores_iff {c c' : Circuit Gate} {more : List (GateId × Gate)}
    (h : c.Enlarged c' more) : c.Restores c' ↔ more = [] := by
  have hgates := h.gates
  constructor
  · intro hr
    have heq : c.gates ++ more = c.gates ++ [] := by rw [← hgates, hr.1, List.append_nil]
    exact List.append_cancel_left heq
  · intro hnil
    rw [hnil, List.append_nil] at hgates
    exact ⟨hgates, h.links, h.innerInput, h.innerOutput⟩

theorem nodup_iff_not_mem_drop {names : List String} :
    names.Nodup ↔ ∀ i name, names[i]? = some name → name ∉ names.drop (i + 1) := by
  induction names with
  | nil => simp
  | cons name names ih =>
    rw [List.nodup_cons, ih]
    constructor
    · intro h i other hi
      cases i with
      | zero =>
        cases hi
        exact h.1
      | succ i => exact h.2 i other hi
    · intro h
      exact ⟨h 0 name rfl, fun i => h (i + 1)⟩

/-- An insertion that fails leaves behind the gates that were made under an id which a later gate
took over, and nothing else; so all is as it was exactly where no id was given twice. -/
theorem insert_undone {own : Face} {c : Circuit Gate} (hg : (Gate.circuit own c).Reachable)
    {d : Description} {offset : Position} {g' : Gate} {e : Fault}
    (h : (Gate.circuit own c).insert d offset = (g', .error e)) :
    ∃ c' orphans, g' = .circuit own c' ∧ c.Enlarged c' orphans ∧
      (∀ a ∈ orphans, a.2.Unlinked) ∧
      (∀ i, c.nextGate + i ∈ Entries.keys orphans ↔
        ∃ name, ((d.gates.take (c'.nextGate - c.nextGate)).map (·.id))[i]? = some name ∧
          name ∈ ((d.gates.take (c'.nextGate - c.nextGate)).map (·.id)).drop (i + 1)) ∧
      (c.Restores c' ↔ ((d.gates.take (c'.nextGate - c.nextGate)).map (·.id)).Nodup) := by
  obtain ⟨-, -, hc⟩ := Gate.sound_circuit_iff.mp hg.sound
  obtain ⟨n, hn, c₁, made, hr, hi⟩ := Gate.insert_cases hc own d offset
  obtain ⟨g, -, hi⟩ | ⟨e', hi⟩ := hi
  · rw [h] at hi
    cases hi
  · rw [h] at hi
    cases hi
    obtain ⟨orphans, he, hfree, hnext, hkeys⟩ := hr.rollback hc
    have hlen : ((d.gates.take n).map (·.id)).length = n := by simp [Nat.min_eq_left hn]
    have hcount : (c₁.rollback made).nextGate - c.nextGate = n := by
      rw [hnext, hlen, Nat.add_sub_cancel_left]
    refine ⟨_, orphans, rfl, he, fun a ha => (hfree a ha).2, ?_, ?_⟩
    · rw [hcount]
      exact hkeys
    · rw [hcount, he.restores_iff, nodup_iff_not_mem_drop]
      constructor
      · intro hnil i name hname hdrop
        have hid := (hkeys i).mpr ⟨name, hname, hdrop⟩
        rw [hnil] at hid
        cases hid
      · intro hall
        rw [List.eq_nil_iff_forall_not_mem]
        intro a ha
        have hid : a.1 ∈ Entries.keys orphans := Entries.mem_keys_of_mem ha
        have hi := Nat.add_sub_cancel' (he.ids a.1 hid).1
        rw [← hi] at hid
        obtain ⟨name, hname, hdrop⟩ := (hkeys _).mp hid
        exact hall _ name hname hdrop

def Registry.inverter : Registry :=
  Registry.empty.insert "not" (.ofTransform ⟨.bit none, .bit none⟩ "not")

/-- A gate is made, and then the link turns out to be unreadable. -/
theorem insert_undone_inverter :
    ∃ c' e, (Gate.ofCircuit "scratch" (.empty .inverter)).insert
      ⟨[⟨"a", "not", none⟩], ["a"]⟩ .zero =
        (.circuit (.new "scratch" ⟨default, default⟩) c', .error e) ∧
      c'.nextGate = 1 ∧ (Circuit.empty .inverter).Restores c' := by
  have hnot := Gate.ofTemplate_transform .inverter "not" rfl rfl
  have hfail : ∃ c' e, (Gate.ofCircuit "scratch" (.empty .inverter)).insert
      ⟨[⟨"a", "not", none⟩], ["a"]⟩ .zero =
        (.circuit (.new "scratch" ⟨default, default⟩) c', .error e) ∧ c'.nextGate = 1 := by
    simp only [Gate.ofCircuit, Gate.insert, Circuit.insert, Circuit.insertParts,
      Circuit.insertGates, Circuit.empty, Circuit.add, hnot]
    exact ⟨_, _, rfl, rfl⟩
  obtain ⟨c', e, h, hnext⟩ := hfail
  obtain ⟨_, orphans, heq, -, -, -, hiff⟩ := insert_undone (.circuit "scratch" .inverter) h
  cases heq
  refine ⟨c', e, h, hnext, hiff.mpr ?_⟩
  rw [hnext]
  decide

/-- Two gates of one id are made, and then a gate that cannot be made; the first of them stays. -/
theorem insert_leaves_gate :
    (Gate.ofCircuit "scratch" (.empty .inverter)).Reachable ∧
      ∃ c' e, (Gate.ofCircuit "scratch" (.empty .inverter)).insert
        ⟨[⟨"a", "not", none⟩, ⟨"a", "not", none⟩, ⟨"b", "missing", none⟩], []⟩ .zero =
          (.circuit (.new "scratch" ⟨default, default⟩) c', .error e) ∧
        c'.gateIds = [0] ∧ ¬(Circuit.empty .inverter).Restores c' := by
  refine ⟨.circuit "scratch" .inverter, ?_⟩
  have hnot := Gate.ofTemplate_transform .inverter "not" rfl rfl
  have hmissing := Gate.ofTemplate_unknown .inverter "missing" rfl
  simp only [Gate.ofCircuit, Gate.insert, Circuit.insert, Circuit.insertParts, Circuit.insertGates,
    Circuit.empty, Circuit.add, hnot, hmissing]
  refine ⟨_, _, rfl, rfl, fun hr => ?_⟩
  have hkeys : [0] = ([] : List GateId) := congrArg Entries.keys hr.1
  cases hkeys

end TickCircuit
