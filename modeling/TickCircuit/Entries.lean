/-!
Entries by key, in the order in which their keys first came. Main statements: what `get?` finds
after a `put`, a `modify` or an `erase` (`get?_put`, `get?_modify`, `get?_erase`).
-/
namespace TickCircuit

abbrev Entries (κ α : Type) := List (κ × α)

namespace Entries
variable {κ α : Type}

def keys (es : Entries κ α) : List κ := es.map (·.1)

theorem keys_append (es later : Entries κ α) : keys (es ++ later) = keys es ++ keys later :=
  List.map_append

theorem keys_filter (p : κ → Bool) (es : Entries κ α) :
    keys (es.filter fun e => p e.1) = (keys es).filter p := by
  simp [keys, List.filter_map, Function.comp_def]

theorem mem_keys_of_mem {k : κ} {a : α} {es : Entries κ α} (h : (k, a) ∈ es) : k ∈ es.keys :=
  List.mem_map.mpr ⟨(k, a), h, rfl⟩

variable [DecidableEq κ]

def get? (k : κ) : Entries κ α → Option α
  | [] => none
  | (j, a) :: es => if j = k then some a else get? k es

def has (k : κ) (es : Entries κ α) : Bool := (es.get? k).isSome

/-- A known key keeps its place, and a new one goes last. -/
def put (k : κ) (a : α) : Entries κ α → Entries κ α
  | [] => [(k, a)]
  | (j, b) :: es => if j = k then (k, a) :: es else (j, b) :: put k a es

def putAll (es later : Entries κ α) : Entries κ α := later.foldl (fun es (k, a) => put k a es) es

def erase (k : κ) : Entries κ α → Entries κ α
  | [] => []
  | (j, a) :: es => if j = k then es else (j, a) :: erase k es

def modify (k : κ) (f : α → α) : Entries κ α → Entries κ α
  | [] => []
  | (j, a) :: es => if j = k then (j, f a) :: es else (j, a) :: modify k f es

theorem get?_put (k j : κ) (a : α) (es : Entries κ α) :
    (put k a es).get? j = if k = j then some a else es.get? j := by
  induction es with
  | nil => simp [put, get?]
  | cons e es ih =>
    obtain ⟨i, b⟩ := e
    by_cases hi : i = k
    · subst hi
      by_cases hj : i = j <;> simp [put, get?, hj]
    · simp only [put, if_neg hi, get?, ih]
      by_cases hk : k = j
      · subst hk
        simp [hi]
      · simp only [if_neg hk]

theorem keys_modify (k : κ) (f : α → α) (es : Entries κ α) :
    keys (modify k f es) = keys es := by
  induction es with
  | nil => rfl
  | cons e es ih =>
    obtain ⟨j, a⟩ := e
    by_cases h : j = k <;> simp_all [modify, keys]

theorem mem_keys_of_get? {k : κ} {a : α} {es : Entries κ α} (h : es.get? k = some a) :
    k ∈ es.keys := by
  induction es with
  | nil => cases h
  | cons e es ih =>
    obtain ⟨j, b⟩ := e
    by_cases hj : j = k <;> simp_all [get?, keys]

theorem mem_keys_iff {k : κ} {es : Entries κ α} : k ∈ es.keys ↔ ∃ a, es.get? k = some a := by
  constructor
  · intro h
    induction es with
    | nil => cases h
    | cons e es ih =>
      obtain ⟨j, a⟩ := e
      by_cases hj : j = k
      · exact ⟨a, by simp [get?, hj]⟩
      · have hk : k ∈ keys es := by
          simpa [keys, Ne.symm hj] using h
        obtain ⟨b, hb⟩ := ih hk
        exact ⟨b, by simp [get?, hj, hb]⟩
  · intro hx
    obtain ⟨a, h⟩ := hx
    exact mem_keys_of_get? h

theorem get?_eq_none_iff {k : κ} {es : Entries κ α} : es.get? k = none ↔ k ∉ es.keys := by
  rw [mem_keys_iff]
  cases h : es.get? k <;> simp

theorem has_eq_true_iff {k : κ} {es : Entries κ α} : es.has k = true ↔ k ∈ es.keys := by
  rw [has, Option.isSome_iff_exists, mem_keys_iff]

theorem mem_of_get? {k : κ} {a : α} {es : Entries κ α} (h : es.get? k = some a) : (k, a) ∈ es := by
  induction es with
  | nil => cases h
  | cons e es ih =>
    obtain ⟨j, b⟩ := e
    by_cases hj : j = k <;> simp_all [get?]

theorem get?_of_mem {k : κ} {a : α} {es : Entries κ α} (hn : es.keys.Nodup) (h : (k, a) ∈ es) :
    es.get? k = some a := by
  induction es with
  | nil => cases h
  | cons e es ih =>
    obtain ⟨j, b⟩ := e
    obtain ⟨hj, hn⟩ := List.nodup_cons.mp hn
    obtain h | h := List.mem_cons.mp h
    · cases h
      simp [get?]
    · have hk : j ≠ k := by
        intro heq
        subst heq
        exact hj (mem_keys_of_mem h)
      simp [get?, hk, ih hn h]

theorem get?_append (k : κ) (es later : Entries κ α) :
    (es ++ later : Entries κ α).get? k = (es.get? k).or (later.get? k) := by
  induction es with
  | nil => rfl
  | cons e es ih =>
    obtain ⟨j, a⟩ := e
    by_cases hj : j = k <;> simp [get?, hj, ih]

theorem get?_modify (k j : κ) (f : α → α) (es : Entries κ α) :
    (modify k f es).get? j = if k = j then (es.get? j).map f else es.get? j := by
  induction es with
  | nil => simp [modify, get?]
  | cons e es ih =>
    obtain ⟨i, a⟩ := e
    by_cases hi : i = k
    · subst hi
      by_cases hj : i = j <;> simp [modify, get?, hj]
    · by_cases hj : i = j
      · subst hj
        simp [modify, get?, hi, Ne.symm hi]
      · simp [modify, get?, hi, hj, ih]

theorem modify_congr {k : κ} {f g : α → α} {es : Entries κ α}
    (h : ∀ a, es.get? k = some a → f a = g a) : modify k f es = modify k g es := by
  induction es with
  | nil => rfl
  | cons e es ih =>
    obtain ⟨j, a⟩ := e
    by_cases hj : j = k
    · simp [modify, hj, h a (by simp [get?, hj])]
    · simp only [modify, if_neg hj]
      rw [ih fun b hb => h b (by simpa [get?, hj] using hb)]

theorem modify_eq_self {k : κ} {f : α → α} {es : Entries κ α}
    (h : ∀ a, es.get? k = some a → f a = a) : modify k f es = es := by
  induction es with
  | nil => rfl
  | cons e es ih =>
    obtain ⟨j, a⟩ := e
    by_cases hj : j = k
    · subst hj
      simp [modify, h a (by simp [get?])]
    · simp only [modify, if_neg hj]
      rw [ih fun b hb => h b (by simpa [get?, hj] using hb)]

theorem put_of_not_mem {k : κ} {es : Entries κ α} (h : k ∉ es.keys) (a : α) :
    put k a es = es ++ [(k, a)] := by
  induction es with
  | nil => rfl
  | cons e es ih =>
    obtain ⟨j, b⟩ := e
    have hj : j ≠ k := by
      intro heq
      subst heq
      exact h List.mem_cons_self
    simp [put, hj, ih fun hk => h (List.mem_cons_of_mem _ hk)]

theorem keys_erase (k : κ) (es : Entries κ α) : keys (erase k es) = (keys es).erase k := by
  induction es with
  | nil => rfl
  | cons e es ih =>
    obtain ⟨j, a⟩ := e
    by_cases hj : j = k
    · simp [erase, keys, hj]
    · simp only [erase, if_neg hj]
      simpa [keys, hj] using ih

theorem get?_erase {es : Entries κ α} (hn : es.keys.Nodup) (k j : κ) :
    (erase k es).get? j = if k = j then none else es.get? j := by
  induction es with
  | nil => simp [erase, get?]
  | cons e es ih =>
    obtain ⟨i, a⟩ := e
    obtain ⟨hi, hn⟩ := List.nodup_cons.mp hn
    by_cases hk : i = k
    · subst hk
      by_cases hj : i = j
      · subst hj
        simpa [erase] using get?_eq_none_iff.mpr hi
      · simp [erase, get?, hj]
    · by_cases hj : i = j
      · subst hj
        simp [erase, get?, hk, Ne.symm hk]
      · simp [erase, get?, hk, hj, ih hn]

theorem modify_eq_map {es : Entries κ α} (hn : es.keys.Nodup) (k : κ) (f : α → α) :
    modify k f es = es.map fun (j, a) => (j, if j = k then f a else a) := by
  induction es with
  | nil => rfl
  | cons e es ih =>
    obtain ⟨j, a⟩ := e
    obtain ⟨hj, hn⟩ := List.nodup_cons.mp hn
    by_cases hk : j = k
    · subst hk
      have hrest : es.map (fun (i, b) => (i, if i = j then f b else b)) = es := by
        rw [List.map_congr_left (g := id), List.map_id]
        intro e he
        have hne : e.1 ≠ j := fun h => hj (h ▸ mem_keys_of_mem (a := e.2) he)
        simp [hne]
      simp [modify, hrest]
    · simp [modify, hk, ih hn]

theorem get?_map {β : Type} (f : α → β) (k : κ) (es : Entries κ α) :
    get? k (es.map fun (j, a) => (j, f a)) = (es.get? k).map f := by
  induction es with
  | nil => rfl
  | cons e es ih =>
    obtain ⟨j, a⟩ := e
    by_cases hj : j = k <;> simp [get?, hj, ih]

theorem map_modify {β : Type} {k : κ} {f : α → α} {g : κ × α → β} (h : ∀ a, g (k, f a) = g (k, a))
    (es : Entries κ α) : (modify k f es).map g = es.map g := by
  induction es with
  | nil => rfl
  | cons e es ih =>
    obtain ⟨j, a⟩ := e
    by_cases hj : j = k
    · subst hj
      simp [modify, h]
    · simp [modify, hj, ih]

theorem modify_append_of_not_mem {k : κ} {es : Entries κ α} (h : k ∉ es.keys) (f : α → α)
    (later : Entries κ α) : modify k f (es ++ later) = es ++ modify k f later := by
  induction es with
  | nil => rfl
  | cons e es ih =>
    obtain ⟨j, a⟩ := e
    have hj : j ≠ k := by
      intro heq
      subst heq
      exact h List.mem_cons_self
    simp [modify, hj, ih fun hk => h (List.mem_cons_of_mem _ hk)]

theorem erase_append_of_not_mem {k : κ} {es : Entries κ α} (h : k ∉ es.keys)
    (later : Entries κ α) : erase k (es ++ later) = es ++ erase k later := by
  induction es with
  | nil => rfl
  | cons e es ih =>
    obtain ⟨j, a⟩ := e
    have hj : j ≠ k := by
      intro heq
      subst heq
      exact h List.mem_cons_self
    simp [erase, hj, ih fun hk => h (List.mem_cons_of_mem _ hk)]

theorem erase_of_not_mem {k : κ} {es : Entries κ α} (h : k ∉ es.keys) : erase k es = es := by
  simpa [erase] using erase_append_of_not_mem h []

theorem erase_eq_filter {es : Entries κ α} (hn : es.keys.Nodup) (k : κ) :
    erase k es = es.filter (·.1 ≠ k) := by
  induction es with
  | nil => rfl
  | cons e es ih =>
    obtain ⟨j, a⟩ := e
    obtain ⟨hj, hn⟩ := List.nodup_cons.mp hn
    by_cases hk : j = k
    · subst hk
      have hrest : es.filter (·.1 ≠ j) = es := by
        rw [List.filter_eq_self]
        intro e he
        have hne : e.1 ≠ j := fun h => hj (h ▸ mem_keys_of_mem (a := e.2) he)
        simpa using hne
      simpa [erase] using hrest.symm
    · simp [erase, hk, ih hn]

theorem nodup_keys_put {es : Entries κ α} (hn : es.keys.Nodup) (k : κ) (a : α) :
    (put k a es).keys.Nodup := by
  induction es with
  | nil => simp [put, keys]
  | cons e es ih =>
    obtain ⟨j, b⟩ := e
    obtain ⟨hj, hn⟩ := List.nodup_cons.mp hn
    by_cases hk : j = k
    · subst hk
      rw [put, if_pos rfl]
      exact List.nodup_cons.mpr ⟨hj, hn⟩
    · rw [put, if_neg hk]
      refine List.nodup_cons.mpr ⟨fun h => ?_, ih hn⟩
      obtain ⟨c, hc⟩ := mem_keys_iff.mp h
      rw [get?_put, if_neg (Ne.symm hk)] at hc
      exact hj (mem_keys_of_get? hc)

theorem get?_putAll (es later : Entries κ α) (k : κ) :
    (es.putAll later).get? k = (get? k later.reverse).or (es.get? k) := by
  induction later generalizing es with
  | nil => rfl
  | cons e later ih =>
    obtain ⟨j, a⟩ := e
    have hput : es.putAll ((j, a) :: later) = (put j a es).putAll later := rfl
    rw [hput, ih, List.reverse_cons, get?_append, get?_put, Option.or_assoc]
    congr 1
    by_cases hj : j = k <;> simp [get?, hj]

theorem mem_of_mem_putAll {later : Entries κ α} {e : κ × α} (h : e ∈ putAll [] later)
    (hn : (putAll [] later).keys.Nodup) : e ∈ later := by
  have hget := get?_of_mem hn h
  rw [get?_putAll, get?, Option.or_none] at hget
  exact List.mem_reverse.mp (mem_of_get? hget)

theorem putAll_of_nodup {es later : Entries κ α} (h : (es ++ later : Entries κ α).keys.Nodup) :
    es.putAll later = es ++ later := by
  induction later generalizing es with
  | nil => exact (List.append_nil es).symm
  | cons e later ih =>
    have hput : es.put e.1 e.2 = es ++ [e] := by
      refine put_of_not_mem (fun he => ?_) e.2
      rw [keys_append, List.nodup_append] at h
      exact h.2.2 _ he _ List.mem_cons_self rfl
    have hlater : es.putAll (e :: later) = (es ++ [e]).putAll later := by
      rw [← hput]
      rfl
    rw [hlater, ih (by simpa using h)]
    simp

theorem nodup_keys_putAll {es : Entries κ α} (hn : es.keys.Nodup) (later : Entries κ α) :
    (es.putAll later).keys.Nodup := by
  induction later generalizing es with
  | nil => exact hn
  | cons e later ih => exact ih (nodup_keys_put hn e.1 e.2)

end Entries
end TickCircuit
