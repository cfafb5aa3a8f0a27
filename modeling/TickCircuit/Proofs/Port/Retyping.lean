import TickCircuit.Proofs.Port.Mirror
/-!
Retyping a port. Main statement: a new type is refused exactly where it has no place for a part that
carries a link, and else no link moves, while sub-ports are kept, dropped and made as the new type
has room for them (`retype_keeps_every_link`).
-/
namespace TickCircuit

/-- How many sub-ports a port has under an interface that had `count` of them before. -/
def Interface.room (count : Nat) : Interface → Nat
  | .collection _ cs => cs.length
  | .rest .. | .any _ => count
  | .bit _ | .none _ => 0

namespace Port

/-- Some part of the port carries a link and has no place in the target. -/
def Strands (p : Port) (target : Interface) : Prop :=
  ∃ path q, p.sub? path = some q ∧ q.links ≠ [] ∧ target.childAt? path = none

theorem strands_cons {p q : Port} {target c : Interface} {k : Nat} (hq : p.subs[k]? = some q)
    (hc : target.child? k = some c) (h : q.Strands c) : p.Strands target := by
  obtain ⟨path, r, hr, hl, hn⟩ := h
  have hr : p.sub? (k :: path) = some r := Option.bind_eq_some_iff.mpr ⟨q, hq, hr⟩
  exact ⟨k :: path, r, hr, hl, by simp [Interface.childAt?, hc, hn]⟩

/-- The check that comes before a retype looks for parts that would be stranded. -/
theorem checkRetype_eq_ok_iff {target : Interface} {p : Port} :
    checkRetype target p = .ok () ↔ ¬p.Strands target := by
  induction p generalizing target with
  | mk d i ls subs ih =>
    rw [checkRetype_eq_ok]
    constructor
    · rintro h ⟨path, r, hr, hl, hn⟩
      cases path with
      | nil => cases hn
      | cons k path =>
        obtain ⟨q, hq, hr⟩ := Option.bind_eq_some_iff.mp hr
        have hk := h k q hq
        cases hc : target.child? k with
        | none =>
          rw [hc, Option.elim_none, isLinked_eq_false] at hk
          have hfree := hk path
          rw [linksAt, hr] at hfree
          exact hl hfree
        | some c =>
          rw [hc, Option.elim_some] at hk
          refine (ih q (List.mem_of_getElem? hq)).mp hk ⟨path, r, hr, hl, ?_⟩
          simpa [Interface.childAt?, hc] using hn
    · intro h k q hq
      cases hc : target.child? k with
      | none =>
        refine isLinked_eq_false.mpr fun path => Decidable.byContradiction fun hl => h ?_
        cases hr : q.sub? path with
        | none => exact absurd (by rw [linksAt, hr]; rfl) hl
        | some r =>
          rw [linksAt, hr] at hl
          exact ⟨k :: path, r, Option.bind_eq_some_iff.mpr ⟨q, hq, hr⟩, hl,
            by simp [Interface.childAt?, hc]⟩
      | some c =>
        exact (ih q (List.mem_of_getElem? hq)).mpr fun hs => h (strands_cons hq hc hs)

theorem childAt?_of_checkRetype {target : Interface} {p : Port}
    (h : checkRetype target p = .ok ()) {path : Path} {id : LinkId} (hl : id ∈ p.linksAt path) :
    ∃ i, target.childAt? path = some i := by
  refine Option.ne_none_iff_exists'.mp fun hnone => checkRetype_eq_ok_iff.mp h ?_
  rw [linksAt] at hl
  cases hr : p.sub? path with
  | none =>
    rw [hr] at hl
    cases hl
  | some r =>
    rw [hr] at hl
    exact ⟨path, r, hr, List.ne_nil_of_mem hl, hnone⟩

theorem linksBelow_eq_nil {qs : List Port}
    (h : ∀ (k : Nat) path, (qs[k]?).elim [] (·.linksAt path) = []) : linksBelow qs = [] := by
  refine List.eq_nil_iff_forall_not_mem.mpr fun id hid => ?_
  obtain ⟨q, hq, hid⟩ := mem_linksBelow.mp hid
  obtain ⟨k, hk⟩ := List.getElem?_of_mem hq
  have hnil : q.allLinks = [] := allLinks_eq_nil fun path => by
    simpa only [hk, Option.elim_some] using h k path
  rw [hnil] at hid
  cases hid

theorem allLinks_congr {p q : Port} (h : ∀ path, p.linksAt path = q.linksAt path) :
    p.allLinks = q.allLinks := by
  induction p generalizing q with
  | mk d i ls subs ih =>
    obtain ⟨d', i', ls', subs'⟩ := q
    have hbelow : ∀ ps qs : List Port, (∀ r ∈ ps, r ∈ subs) →
        (∀ (k : Nat) path, (ps[k]?).elim [] (·.linksAt path) = (qs[k]?).elim [] (·.linksAt path)) →
        linksBelow ps = linksBelow qs := by
      intro ps
      induction ps with
      | nil =>
        intro qs _ hsame
        exact (linksBelow_eq_nil fun k path => (hsame k path).symm).symm
      | cons r ps ihps =>
        intro qs hmem hsame
        cases qs with
        | nil => exact linksBelow_eq_nil hsame
        | cons s qs =>
          have hhead := ih r (hmem r List.mem_cons_self) (hsame 0)
          have htail := ihps qs (fun r hr => hmem r (List.mem_cons_of_mem _ hr))
            fun k => hsame (k + 1)
          rw [linksBelow, linksBelow, hhead, htail]
    have hroot : ls = ls' := h []
    have hsubs := hbelow subs subs' (fun _ hr => hr) fun k path => by
      simpa only [linksAt_cons] using h (k :: path)
    rw [allLinks, allLinks, hroot, hsubs]

theorem length_retypedTo (d : Direction) (cs : List Interface) (subs : List Port) :
    (retypedTo d cs subs).length = cs.length := by
  induction subs generalizing cs with
  | nil => exact length_newAll d cs
  | cons q subs ih =>
    cases cs with
    | nil => rfl
    | cons c cs => simp [retypedTo, ih]

theorem length_subs_retyped (target : Interface) (p : Port) :
    (p.retyped target).subs.length = target.room p.subs.length := by
  obtain ⟨d, i, ls, subs⟩ := p
  cases target <;> simp [retyped, Interface.room, length_retypedTo, retypedEach_eq_map]

theorem sub?_retyped_of_some {target c : Interface} {p q : Port} {path : Path}
    (hq : p.sub? path = some q) (hc : target.childAt? path = some c) :
    (p.retyped target).sub? path = some (q.retyped c) := by
  induction path generalizing p target with
  | nil =>
    cases hq
    cases hc
    rfl
  | cons k path ih =>
    obtain ⟨r, hr, hq⟩ := Option.bind_eq_some_iff.mp hq
    obtain ⟨e, he, hc⟩ := Option.bind_eq_some_iff.mp hc
    have hk : (p.retyped target).subs[k]? = some (r.retyped e) := by
      rw [getElem?_subs_retyped, he, Option.bind_some, hr]
      rfl
    exact Option.bind_eq_some_iff.mpr ⟨_, hk, ih hq hc⟩

theorem eq_new_of_sub?_new {d : Direction} {i : Interface} {path : Path} {q : Port}
    (h : (new d i).sub? path = some q) : q = new d q.interface := by
  induction path generalizing i with
  | nil =>
    cases h
    rw [interface_new]
  | cons k path ih =>
    obtain ⟨r, hr, h⟩ := Option.bind_eq_some_iff.mp h
    obtain ⟨c, rfl⟩ := subs_new_of_mem (List.mem_of_getElem? hr)
    exact ih h

theorem Shaped.eq_new_of_sub?_retyped {d : Direction} {target : Interface} {p q : Port}
    (hp : p.Shaped d) {path : Path} (hnone : p.sub? path = none)
    (hq : (p.retyped target).sub? path = some q) : q = new d q.interface := by
  induction path generalizing p target with
  | nil => cases hnone
  | cons k path ih =>
    obtain ⟨r, hr, hq⟩ := Option.bind_eq_some_iff.mp hq
    rw [getElem?_subs_retyped] at hr
    obtain ⟨c, hc, hr⟩ := Option.bind_eq_some_iff.mp hr
    cases hs : p.subs[k]? with
    | none =>
      rw [hs, Option.elim_none, hp.fits.direction, Option.ite_none_right_eq_some] at hr
      cases hr.2
      exact eq_new_of_sub?_new hq
    | some s =>
      rw [hs, Option.elim_some] at hr
      cases hr
      have hbelow : s.sub? path = none := by simpa [Port.sub?, hs] using hnone
      exact ih (hp.sub hs) hbelow hq

/-- The port `p'` is `p` under another interface. -/
structure Retyped (p : Port) (target : Interface) (p' : Port) : Prop where
  interface : p'.interface = target
  mirrors : ∀ {path q}, p'.sub? path = some q →
    q.Mirrors ∧ target.childAt? path = some q.interface
  linksAt : ∀ path, p'.linksAt path = p.linksAt path
  allLinks : p'.allLinks = p.allLinks
  kept : ∀ {path q c}, p.sub? path = some q → target.childAt? path = some c →
    ∃ q', p'.sub? path = some q' ∧ q'.interface = c ∧ q'.links = q.links ∧
      q'.subs.length = c.room q.subs.length
  dropped : ∀ {path}, target.childAt? path = none → p'.sub? path = none
  made : ∀ {path q}, p.sub? path = none → p'.sub? path = some q → q = new p.direction q.interface

theorem Shaped.retyped_of_checkRetype {d : Direction} {p : Port} (hp : p.Shaped d)
    {target : Interface} (h : checkRetype target p = .ok ()) :
    p.Retyped target (p.retyped target) := by
  have hs := hp.retyped target
  have hchild : ∀ {path q}, (p.retyped target).sub? path = some q →
      target.childAt? path = some q.interface := by
    intro path q hq
    rw [← hs.childAt hq, interface_retyped]
  refine ⟨interface_retyped target p, fun hq => ⟨(hs.sub? hq).mirrors, hchild hq⟩,
    linksAt_retyped h, allLinks_congr (linksAt_retyped h), ?_, ?_, ?_⟩
  · intro path q c hq hc
    exact ⟨_, sub?_retyped_of_some hq hc, interface_retyped c q, links_retyped c q,
      length_subs_retyped c q⟩
  · intro path hnone
    cases hq : (p.retyped target).sub? path with
    | none => rfl
    | some q => cases hnone.symm.trans (hchild hq)
  · intro path q hnone hq
    rw [hp.fits.direction]
    exact hp.eq_new_of_sub?_retyped hnone hq

/-- A new type is refused where it strands a linked part, and only there; else no link moves. -/
theorem retype_keeps_every_link {d : Direction} {p : Port} (hp : p.Reachable d)
    (target : Interface) :
    (p.Strands target → ∃ e, p.retype target = (p, .error e)) ∧
      (¬p.Strands target → ∃ p', p.retype target = (p', .ok ()) ∧ p.Retyped target p') := by
  constructor
  · intro hs
    cases h : checkRetype target p with
    | ok u => exact absurd hs (checkRetype_eq_ok_iff.mp h)
    | error e => exact ⟨e, retype_error h⟩
  · intro hs
    have h := checkRetype_eq_ok_iff.mpr hs
    exact ⟨p.retyped target, by rw [retype, h], hp.shaped.retyped_of_checkRetype h⟩

/-- A rest with one linked bit becomes a triple, and not a bit. -/
theorem retype_keeps_every_link_triple :
    let p := [Revision.connect 7 [.index 1] (.bit none)].foldl revised
      (new .input (.rest none (.bit none)))
    let triple : Interface := .copies 3 (.bit none)
    p.Reachable .input ∧ p.Strands (.bit none) ∧ ¬p.Strands triple ∧
      (∃ e, p.retype (.bit none) = (p, .error e)) ∧
      ∃ p', p.retype triple = (p', .ok ()) ∧ p.Retyped triple p' ∧ p'.allLinks = [7] := by
  intro p triple
  have hp : p.Reachable .input := (Reachable.new (.rest none (.bit none))).foldl_revised _
  have hbit : p.Strands (.bit none) := ⟨[1], _, rfl, List.cons_ne_nil 7 [], rfl⟩
  have htriple : ¬p.Strands triple := checkRetype_eq_ok_iff.mp rfl
  obtain ⟨p', hr, hretyped⟩ := (retype_keeps_every_link hp triple).2 htriple
  exact ⟨hp, hbit, htriple, (retype_keeps_every_link hp (.bit none)).1 hbit, p', hr, hretyped,
    hretyped.allLinks⟩

end Port
end TickCircuit
