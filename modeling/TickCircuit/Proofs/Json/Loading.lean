import TickCircuit.Json.Decode
import TickCircuit.Proofs.Json.Finite
import TickCircuit.Proofs.Results
/-!
What is known of everything that was decoded from a text: a decoder yields what its parts yield
(`Yields`), beginning with numbers that are finite.
-/
namespace TickCircuit.Json.Decoder
variable {α β σ : Type} {P : α → Prop} {Q : σ → Prop} {decode : Decoder α}

def Yields (P : α → Prop) (decode : Decoder α) : Prop :=
  ∀ v a, v.Finite → decode v = .ok a → P a

theorem yields_float : Yields (·.isFinite = true) float := by
  intro v x hv h
  unfold float at h
  split at h
  · cases h
    cases hv with
    | number hn => exact hn _ rfl
  · cases h

theorem yields_true (decode : Decoder α) : Yields (fun _ => True) decode := fun _ _ _ _ => trivial

theorem Yields.optional (h : Yields P decode) : Yields (fun o => ∀ a ∈ o, P a) (optional decode) := by
  intro v o hv ho
  unfold Decoder.optional at ho
  split at ho
  · cases ho
    nofun
  · obtain ⟨a, ha, rfl⟩ := map_eq_ok.mp ho
    rintro _ ⟨⟩
    exact h _ a hv ha

theorem Yields.list (h : Yields P decode) : Yields (fun as => ∀ a ∈ as, P a) (list decode) := by
  intro v as hv has
  unfold Decoder.list at has
  split at has
  · cases hv with
    | list hitems =>
      intro a ha
      obtain ⟨x, hx, hxa⟩ := mem_of_mapM has ha
      exact h x a (hitems x hx) hxa
  · cases has

theorem Yields.map (h : Yields P decode) : Yields (fun ms => ∀ m ∈ ms, P m.2) (map decode) := by
  intro v entries hv he
  unfold Decoder.map at he
  split at he
  next ms =>
    cases hv with
    | object hms =>
      induction ms generalizing entries with
      | nil =>
        cases he
        nofun
      | cons m ms ih =>
        obtain ⟨key, v⟩ := m
        cases key with
        | none => cases he
        | some key =>
          obtain ⟨a, ha, he⟩ := bind_eq_ok.mp he
          obtain ⟨more, hmore, he⟩ := bind_eq_ok.mp he
          cases he
          intro m hm
          obtain rfl | hm := List.mem_cons.mp hm
          · exact h v a (hms _ List.mem_cons_self) ha
          · exact ih more hmore (fun m hm => hms m (List.mem_cons_of_mem _ hm)) m hm
  · cases he

theorem Yields.once (h : Yields P decode) (name : String) (field : Option α) :
    Yields P (once name field decode) := by
  intro v a hv ha
  unfold Decoder.once at ha
  split at ha
  · cases ha
  · exact h v a hv ha

theorem Yields.put (h : Yields P decode) {name : String} {field : Option α} {f : α → σ} {v : Draft}
    {s : σ} (hv : v.Finite) (hs : f <$> Decoder.once name field decode v = .ok s) :
    ∃ a, P a ∧ f a = s := by
  obtain ⟨a, ha, rfl⟩ := map_eq_ok.mp hs
  exact ⟨a, h.once name field v a hv ha, rfl⟩

theorem require_eq_ok {name : String} {field : Option α} {a : α} :
    require name field = .ok a ↔ field = some a := by
  cases field with
  | none => exact ⟨nofun, nofun⟩
  | some b => exact ⟨fun h => congrArg some (Except.ok.inj h), fun h => congrArg _ (Option.some.inj h)⟩

theorem getD_of_forall {field : Option α} {absent : α} (h : ∀ a ∈ field, P a) (habsent : P absent) :
    P (field.getD absent) := by
  cases field with
  | none => exact habsent
  | some a => exact h a rfl

theorem eq_of_skip {s s' : σ} {v : Draft} (h : skip s v = .ok s') : s = s' := by
  unfold skip at h
  split at h
  · exact Except.ok.inj h
  · cases h

theorem yields_members {step : σ → String → Decoder σ} (hstep : ∀ s key, Q s → Yields Q (step s key))
    {ms : List (Option String × Draft)} (hms : ∀ m ∈ ms, m.2.Finite) {s s' : σ} (hs : Q s)
    (h : members step s ms = .ok s') : Q s' := by
  induction ms generalizing s with
  | nil =>
    cases h
    exact hs
  | cons m ms ih =>
    obtain ⟨key, v⟩ := m
    cases key with
    | none => cases h
    | some key =>
      obtain ⟨t, ht, h⟩ := bind_eq_ok.mp h
      exact ih (fun m hm => hms m (List.mem_cons_of_mem _ hm))
        (hstep s key hs v t (hms _ List.mem_cons_self) ht) h

theorem tooShort_ne_ok {length fields : Nat} {record : String} {a : α} :
    tooShort length record fields ≠ .ok a := nofun

theorem Yields.field (h : Yields P decode) {absent : Except Flaw α}
    (habsent : ∀ a, absent = .ok a → P a) {items rest : List Draft} {a : α}
    (hitems : ∀ v ∈ items, v.Finite) (hf : field absent decode items = .ok (a, rest)) :
    P a ∧ ∀ v ∈ rest, v.Finite := by
  cases items with
  | nil =>
    obtain ⟨b, hb, he⟩ := map_eq_ok.mp hf
    cases he
    exact ⟨habsent a hb, nofun⟩
  | cons v items =>
    obtain ⟨b, hb, he⟩ := map_eq_ok.mp hf
    cases he
    exact ⟨h v a (hitems v List.mem_cons_self) hb,
      fun w hw => hitems w (List.mem_cons_of_mem _ hw)⟩

theorem decode_of_document {text : String} {a : α} (h : document decode text = .ok a) :
    decode (Draft.ofText text).1 = .ok a := by
  change (decode (Draft.ofText text).1 >>= fun a =>
    if (Draft.ofText text).2 then .ok a else .error .malformed) = _ at h
  obtain ⟨b, hb, h⟩ := bind_eq_ok.mp h
  split at h
  · cases h
    exact hb
  · cases h

end TickCircuit.Json.Decoder
