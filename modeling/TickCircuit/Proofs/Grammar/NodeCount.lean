import TickCircuit.Proofs.Grammar.RoundTrip
import TickCircuit.Proofs.Grammar.Size
/-!
How many nodes a text can stand for. As each repetition is checked, a node of a phrase stands for
`maxNodes + 1` nodes of a term at most (`Term.nodeCount_le`), and where all counts stay within a
machine word, it makes no difference that they are words (`Term.readInWords_eq`). Main statement:
the bound for a text, by its bytes, and what it means for the counts (`nodes_per_byte`).
-/
namespace TickCircuit.Grammar
open Text

def word (n : Nat) : Option Nat := if n < wordLimit then some n else none

def wordSum (a b : Option Nat) : Option Nat := a.bind fun a => b.bind fun b => word (a + b)

def wordTotal (counts : List (Option Nat)) : Option Nat := counts.foldl wordSum (some 0)

theorem word_eq_some {n : Nat} (h : n < wordLimit) : word n = some n := if_pos h

theorem word_eq_none {n : Nat} (h : wordLimit ≤ n) : word n = none := if_neg (Nat.not_lt.mpr h)

theorem wordSum_word (a b : Nat) : wordSum (word a) (word b) = word (a + b) := by
  by_cases ha : a < wordLimit
  · by_cases hb : b < wordLimit
    · rw [word_eq_some ha, word_eq_some hb]
      rfl
    · have hsum : wordLimit ≤ a + b := by omega
      rw [word_eq_some ha, word_eq_none (Nat.not_lt.mp hb), word_eq_none hsum]
      rfl
  · have hsum : wordLimit ≤ a + b := by omega
    rw [word_eq_none (Nat.not_lt.mp ha), word_eq_none hsum]
    rfl

/-- The check of a repetition in machine words, where a product that leaves the word stays at the
largest one. -/
def checkInWords (itemNodes count : Nat) (text : List Char) : Except ParseError Unit :=
  if min (itemNodes * count) (wordLimit - 1) > maxNodes then .error ⟨.expansionTooLarge, text⟩
  else .ok ()

theorem checkInWords_eq (itemNodes count : Nat) (text : List Char) :
    checkInWords itemNodes count text = checkExpansion itemNodes count text := by
  have hlimit : maxNodes < wordLimit - 1 := by decide
  have hmin : min (itemNodes * count) (wordLimit - 1) > maxNodes ↔
      itemNodes * count > maxNodes := by omega
  simp only [checkInWords, checkExpansion, hmin]

namespace Term

/-- A term's nodes, how a machine counts them, and what a repetition without a count is, if it is
anything. -/
class Counted (α : Type) [Term α] where
  wordCount : α → Option Nat
  rest? : Option (Option String → α → α)
  ofPhrase_rest : ∀ label text item, Term.ofPhrase (.times label text item none) =
    rest?.elim (.error ⟨.unboundedValue, text⟩) fun rest =>
      rest label <$> (Term.ofPhrase item : Except ParseError α)
  nodeCount_word : ∀ {label text} {v : α}, ofPhrase (.word label text) = .ok v → nodeCount v = 1
  nodeCount_rest : ∀ {rest}, rest? = some rest → ∀ label (v : α),
    nodeCount (rest label v) = 1 + nodeCount v
  nodeCount_collection : ∀ label (vs : List α), nodeCount (collection label vs) = 1 + nodes vs
  wordCount_eq : ∀ v : α, wordCount v = word (nodeCount v)

section
variable {α : Type} [Term α]

theorem wordTotal_eq {count : α → Option Nat} {vs : List α}
    (hcount : ∀ v ∈ vs, count v = word (nodeCount v)) :
    wordTotal (vs.map count) = word (nodes vs) := by
  have hfrom : ∀ n, (vs.map count).foldl wordSum (word n) = word (n + nodes vs) := by
    induction vs with
    | nil =>
      intro n
      rfl
    | cons v vs ih =>
      intro n
      change _ = word (n + (nodeCount v + nodes vs))
      rw [List.map_cons, List.foldl_cons, hcount v List.mem_cons_self, wordSum_word,
        ih (fun w hw => hcount w (List.mem_cons_of_mem _ hw)), Nat.add_assoc]
  have hzero := hfrom 0
  rwa [Nat.zero_add] at hzero

theorem ofPhrase_times_eq_ok {label : Option String} {text : List Char} {item : Phrase} {n : Nat}
    {v : α} : ofPhrase (.times label text item (some n)) = .ok v ↔
      ∃ element, ofPhrase item = .ok element ∧ nodeCount element * n ≤ maxNodes ∧
        collection label (List.replicate n element) = v := by
  rw [ofPhrase_times, copies_eq_ok]

theorem nodes_le {phrases : List Phrase} {vs : List α} (h : phrases.mapM ofPhrase = .ok vs)
    (hitem : ∀ p ∈ phrases, ∀ v : α, ofPhrase p = .ok v → nodeCount v ≤ (maxNodes + 1) * p.size) :
    nodes vs ≤ (maxNodes + 1) * Phrase.sizeAll phrases := by
  induction phrases generalizing vs with
  | nil =>
    cases h
    exact Nat.zero_le _
  | cons p ps ih =>
    rw [List.mapM_cons] at h
    obtain ⟨v, hv, h⟩ := bind_eq_ok.mp h
    obtain ⟨vs', hvs, ⟨⟩⟩ := bind_eq_ok.mp h
    have hfirst := hitem p List.mem_cons_self v hv
    have hrest := ih hvs fun q hq => hitem q (List.mem_cons_of_mem _ hq)
    rw [Phrase.sizeAll, Nat.mul_add]
    exact Nat.add_le_add hfirst hrest

variable [Counted α]

/-- A node of a phrase stands for `maxNodes` nodes and one more at most: a repetition is checked,
and whatever else is read has the nodes of its parts and one more. -/
theorem nodeCount_le {p : Phrase} {v : α} (h : ofPhrase p = .ok v) :
    nodeCount v ≤ (maxNodes + 1) * p.size := by
  induction p generalizing v with
  | word label text =>
    rw [Counted.nodeCount_word h, Phrase.size]
    omega
  | list label text items ih =>
    rw [ofPhrase_list] at h
    obtain ⟨vs, hvs, rfl⟩ := map_eq_ok.mp h
    have hnodes := nodes_le hvs fun p hp v => ih p hp
    rw [Counted.nodeCount_collection, Phrase.size, Nat.mul_add]
    omega
  | times label text item count ih =>
    rw [Phrase.size, Nat.mul_add]
    cases count with
    | none =>
      rw [Counted.ofPhrase_rest] at h
      cases hrest : (Counted.rest? : Option (Option String → α → α)) with
      | none =>
        rw [hrest] at h
        cases h
      | some rest =>
        rw [hrest] at h
        obtain ⟨element, helement, rfl⟩ := map_eq_ok.mp h
        have hitem := ih helement
        rw [Counted.nodeCount_rest hrest]
        omega
    | some n =>
      -- The copies are within the limit, however large the item is: its bound is not needed.
      obtain ⟨element, -, hlimit, rfl⟩ := ofPhrase_times_eq_ok.mp h
      rw [Counted.nodeCount_collection, nodes_replicate]
      omega

/-- The terms whose nodes are counted when a phrase is read, unless there was an error before: the
items of its repetitions. -/
inductive Counts : Phrase → α → Prop
  | item {label text item n v} : ofPhrase item = .ok v → Counts (.times label text item (some n)) v
  | list {label text items p v} : p ∈ items → Counts p v → Counts (.list label text items) v
  | times {label text item count v} : Counts item v → Counts (.times label text item count) v

mutual
/-- Reading with counts in machine words: there is no answer once one leaves the word. -/
def readInWords : Phrase → Option (Except ParseError α)
  | .word label text => some (ofPhrase (.word label text))
  | .list label _ items => (readAllInWords items).map (collection label <$> ·)
  | .times label text item none =>
    Counted.rest?.elim (some (.error ⟨.unboundedValue, text⟩)) fun rest =>
      (readInWords item).map (rest label <$> ·)
  | .times label text item (some n) =>
    (readInWords item).bind fun
      | .error e => some (.error e)
      | .ok v => (Counted.wordCount v).map fun count => do
        checkInWords count n text
        return collection label (List.replicate n v)
def readAllInWords : List Phrase → Option (Except ParseError (List α))
  | [] => some (.ok [])
  | p :: ps =>
    (readInWords p).bind fun
      | .error e => some (.error e)
      | .ok v => (readAllInWords ps).map ((v :: ·) <$> ·)
end

theorem readAllInWords_eq {phrases : List Phrase}
    (h : ∀ p ∈ phrases, readInWords p = some (ofPhrase p : Except ParseError α)) :
    readAllInWords phrases = some (phrases.mapM (ofPhrase : Phrase → Except ParseError α)) := by
  induction phrases with
  | nil => rfl
  | cons p ps ih =>
    rw [readAllInWords, h p List.mem_cons_self, ih fun q hq => h q (List.mem_cons_of_mem _ hq),
      List.mapM_cons]
    cases (ofPhrase p : Except ParseError α) with
    | error e => rfl
    | ok v => cases ps.mapM (ofPhrase : Phrase → Except ParseError α) <;> rfl

theorem readInWords_eq {p : Phrase} (h : ∀ v : α, Counts p v → nodeCount v < wordLimit) :
    readInWords p = some (ofPhrase p : Except ParseError α) := by
  induction p with
  | word label text => rfl
  | list label text items ih =>
    rw [readInWords, readAllInWords_eq fun p hp => ih p hp fun v hv => h v (.list hp hv),
      ofPhrase_list]
    rfl
  | times label text item count ih =>
    have hitem := ih fun v hv => h v (.times hv)
    cases count with
    | none =>
      rw [readInWords, Counted.ofPhrase_rest, hitem]
      cases (Counted.rest? : Option (Option String → α → α)) <;> rfl
    | some n =>
      rw [readInWords, hitem, ofPhrase_times]
      cases hv : (ofPhrase item : Except ParseError α) with
      | error e => rfl
      | ok v =>
        rw [Option.bind_some]
        dsimp only
        rw [Counted.wordCount_eq, word_eq_some (h v (.item hv)), Option.map_some, checkInWords_eq]
        rfl

theorem Counts.nodeCount_le {p : Phrase} {v : α} (h : Counts p v) :
    nodeCount v ≤ (maxNodes + 1) * p.size := by
  induction h with
  | item hv =>
    refine (Term.nodeCount_le hv).trans (Nat.mul_le_mul_left _ ?_)
    exact Nat.le_add_left _ _
  | list hp _ ih =>
    refine ih.trans (Nat.mul_le_mul_left _ ?_)
    exact (Phrase.size_le_sizeAll hp).trans (Nat.le_add_left _ _)
  | times _ ih =>
    refine ih.trans (Nat.mul_le_mul_left _ ?_)
    exact Nat.le_add_left _ _

def parseInWords (text : List Char) : Option (Except ParseError α) :=
  match Phrase.parse text with
  | .error e => some (.error e)
  | .ok p => readInWords p

def CountedIn (text : List Char) (v : α) : Prop := ∃ p, Phrase.parse text = .ok p ∧ Counts p v

theorem parseInWords_eq {text : List Char}
    (h : ∀ v : α, CountedIn text v → nodeCount v < wordLimit) :
    parseInWords text = some (parse text : Except ParseError α) := by
  rw [parseInWords, parse]
  cases hp : Phrase.parse text with
  | error e => rfl
  | ok p => exact readInWords_eq fun v hv => h v ⟨p, hp, hv⟩

variable {text : String} {v : α}

theorem nodeCount_le_of_parse (h : parse text.toList = .ok v) :
    nodeCount v ≤ (maxNodes + 1) * text.utf8ByteSize := by
  obtain ⟨p, hp, hv⟩ := bind_eq_ok.mp h
  exact (nodeCount_le hv).trans (Nat.mul_le_mul_left _ (Phrase.size_le_utf8ByteSize hp))

theorem CountedIn.nodeCount_le (h : CountedIn text.toList v) :
    nodeCount v ≤ (maxNodes + 1) * text.utf8ByteSize := by
  obtain ⟨p, hp, hv⟩ := h
  exact hv.nodeCount_le.trans (Nat.mul_le_mul_left _ (Phrase.size_le_utf8ByteSize hp))

end
end Term
end TickCircuit.Grammar

namespace TickCircuit
open Grammar Text

namespace Interface

mutual
def wordCount : Interface → Option Nat
  | .bit _ | .any _ | .none _ => some 1
  | .rest _ e => wordSum (some 1) (wordCount e)
  | .collection _ cs => wordSum (some 1) (wordTotal (wordCountAll cs))
def wordCountAll : List Interface → List (Option Nat)
  | [] => []
  | c :: cs => wordCount c :: wordCountAll cs
end

theorem wordCountAll_eq_map (cs : List Interface) : wordCountAll cs = cs.map wordCount :=
  eq_map_of_cons wordCountAll rfl (fun _ _ => rfl) cs

/-- The word is the number of nodes, as long as there is such a word. -/
theorem wordCount_eq (i : Interface) : i.wordCount = word i.nodeCount := by
  have hone : some 1 = word 1 := by decide
  induction i with
  | bit label | any label | none label => exact hone
  | rest label element ih => rw [wordCount, nodeCount, ih, hone, wordSum_word]
  | collection label children ih =>
    rw [wordCount, nodeCount, wordCountAll_eq_map, Term.wordTotal_eq ih, nodeCountAll_eq, hone,
      wordSum_word]

instance : Term.Counted Interface where
  wordCount := wordCount
  rest? := some .rest
  ofPhrase_rest label text item := by
    change ofPhrase _ = rest label <$> ofPhrase item
    rw [ofPhrase]
    rfl
  nodeCount_word h := by
    obtain ⟨-, rfl⟩ | ⟨-, rfl⟩ | ⟨-, rfl⟩ := ofPhrase_word_eq_ok.mp h
    all_goals rfl
  nodeCount_rest := by
    rintro _ ⟨⟩ label element
    rfl
  nodeCount_collection label cs := by
    rw [← nodeCountAll_eq]
    rfl
  wordCount_eq := wordCount_eq

end Interface

namespace Value

mutual
def wordCount : Value → Option Nat
  | .bit .. => some 1
  | .collection _ vs => wordSum (some 1) (wordTotal (wordCountAll vs))
def wordCountAll : List Value → List (Option Nat)
  | [] => []
  | v :: vs => wordCount v :: wordCountAll vs
end

theorem wordCountAll_eq_map (vs : List Value) : wordCountAll vs = vs.map wordCount :=
  eq_map_of_cons wordCountAll rfl (fun _ _ => rfl) vs

theorem wordCount_eq (v : Value) : v.wordCount = word v.nodeCount := by
  have hone : some 1 = word 1 := by decide
  induction v with
  | bit label high => exact hone
  | collection label children ih =>
    rw [wordCount, nodeCount, wordCountAll_eq_map, Term.wordTotal_eq ih, nodeCountAll_eq, hone,
      wordSum_word]

instance : Term.Counted Value where
  wordCount := wordCount
  rest? := none
  ofPhrase_rest label text item := by
    change ofPhrase _ = _
    rw [ofPhrase]
    rfl
  nodeCount_word h := by
    obtain ⟨b, rfl⟩ := ofPhrase_word_eq_ok h
    rfl
  nodeCount_rest := by
    rintro _ ⟨⟩
  nodeCount_collection label vs := by
    rw [← nodeCountAll_eq]
    rfl
  wordCount_eq := wordCount_eq

end Value

/-- A text stands for 65537 nodes a byte at most. So no count that is made while it is read leaves
the machine word if the text has at most `2 ^ 48 - 2 ^ 32` bytes. However long it is, none does if
every term that is counted, which is in memory by then, has fewer than `2 ^ 64` nodes. -/
theorem nodes_per_byte (text : String) :
    (∀ i, Interface.parse text.toList = .ok i → i.nodeCount ≤ 65537 * text.utf8ByteSize) ∧
    (∀ v, Value.parse text.toList = .ok v → v.nodeCount ≤ 65537 * text.utf8ByteSize) ∧
    (65537 * text.utf8ByteSize < wordLimit →
      Term.parseInWords text.toList = some (Interface.parse text.toList) ∧
      Term.parseInWords text.toList = some (Value.parse text.toList)) ∧
    ((∀ i : Interface, Term.CountedIn text.toList i → i.nodeCount < wordLimit) →
      Term.parseInWords text.toList = some (Interface.parse text.toList)) ∧
    ((∀ v : Value, Term.CountedIn text.toList v → v.nodeCount < wordLimit) →
      Term.parseInWords text.toList = some (Value.parse text.toList)) := by
  refine ⟨fun i h => ?_, fun v h => ?_, fun h => ⟨?_, ?_⟩, ?_, ?_⟩
  · exact Term.nodeCount_le_of_parse (α := Interface) h
  · exact Term.nodeCount_le_of_parse (α := Value) h
  · exact Term.parseInWords_eq fun i hi => hi.nodeCount_le.trans_lt h
  · exact Term.parseInWords_eq fun v hv => hv.nodeCount_le.trans_lt h
  · exact Term.parseInWords_eq
  · exact Term.parseInWords_eq

def threePairs : Interface :=
  .collection (some "é") (.replicate 3 (.copies 2 (.rest none (.any none))))

theorem parse_threePairs : Interface.parse "é: <<<any>, 2>, 3>".toList = .ok threePairs := by
  have hpair : outline "<<any>, 2>".toList =
      .ok (none, "<<any>, 2>".toList, .times "<any>".toList (some " 2".toList)) := rfl
  have hpairs : outline "é: <<<any>, 2>, 3>".toList =
      .ok (some "é", "<<<any>, 2>, 3>".toList, .times "<<any>, 2>".toList (some " 3".toList)) := rfl
  have hany : Interface.parse "<any>".toList = .ok (.rest none (.any none)) := by cbv
  have hread : Interface.parse "<<any>, 2>".toList = .ok (.copies 2 (.rest none (.any none))) :=
    (Term.parse_copies_eq_ok hpair rfl).mpr ⟨_, hany, by decide, rfl⟩
  exact (Term.parse_copies_eq_ok hpairs rfl).mpr ⟨_, hread, by decide, rfl⟩

def highPairAndLow : Value := .collection none [.bits [true, true], .bit (some "x") false]

theorem parse_highPairAndLow : Value.parse "[<1, 2>, x: 0]".toList = .ok highPairAndLow := by
  have hlist : outline "[<1, 2>, x: 0]".toList =
      .ok (none, "[<1, 2>, x: 0]".toList, .list ["<1, 2>".toList, " x: 0".toList]) := rfl
  have hones : outline "<1, 2>".toList =
      .ok (none, "<1, 2>".toList, .times "1".toList (some " 2".toList)) := rfl
  have hbit : Value.parse "1".toList = .ok .high := by cbv
  have hpair : Value.parse "<1, 2>".toList = .ok (.bits [true, true]) :=
    (Term.parse_copies_eq_ok hones rfl).mpr ⟨_, hbit, by decide, rfl⟩
  have hlow : Value.parse " x: 0".toList = .ok (.bit (some "x") false) := by cbv
  refine (Term.parse_list hlist).mpr ⟨_, ?_, rfl⟩
  change [_, _].mapM Value.parse = _
  simp only [List.mapM_cons, List.mapM_nil, hpair, hlow]
  rfl

theorem nodes_per_byte_nested :
    Interface.parse "é: <<<any>, 2>, 3>".toList = .ok threePairs ∧
      threePairs.nodeCount ≤ 65537 * 19 ∧
      Term.parseInWords "é: <<<any>, 2>, 3>".toList = some (.ok threePairs) ∧
      Value.parse "[<1, 2>, x: 0]".toList = .ok highPairAndLow ∧
      highPairAndLow.nodeCount ≤ 65537 * 14 ∧
      Term.parseInWords "[<1, 2>, x: 0]".toList = some (.ok highPairAndLow) := by
  obtain ⟨hnodes, -, hwords, -⟩ := nodes_per_byte "é: <<<any>, 2>, 3>"
  obtain ⟨-, hnodes', -, -, hcounted⟩ := nodes_per_byte "[<1, 2>, x: 0]"
  have hfew : ∀ v : Value, Term.CountedIn "[<1, 2>, x: 0]".toList v → v.nodeCount < wordLimit :=
    fun v hv => hv.nodeCount_le.trans_lt (by decide)
  refine ⟨parse_threePairs, hnodes _ parse_threePairs, ?_, parse_highPairAndLow,
    hnodes' _ parse_highPairAndLow, ?_⟩
  · rw [← parse_threePairs]
    exact (hwords (by decide)).1
  · rw [← parse_highPairAndLow]
    exact hcounted hfew

end TickCircuit
