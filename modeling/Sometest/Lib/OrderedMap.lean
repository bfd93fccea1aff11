import Mathlib.Data.List.Count
import Mathlib.Data.List.Pairwise
import Mathlib.Order.Lattice

/-! Maps whose entries are kept in the order of their keys, and scans of such a map with a
body that may erase entries and may send the scan back to its start. A scan that is at
an entry holds its key. No program is named here. -/

structure OrderedMap (K V : Type*) [LinearOrder K] where
  entries : List (K × V)
  sorted : entries.Pairwise fun e e' => e.1 < e'.1

namespace OrderedMap

section Entries
variable {K V : Type*} [LinearOrder K]

def find (m : OrderedMap K V) (k : K) : Option V :=
  (m.entries.find? fun e => e.1 = k).map Prod.snd

def first (m : OrderedMap K V) : Option K := m.entries.head?.map Prod.fst

/-- The least key above `k`. -/
def next (m : OrderedMap K V) (k : K) : Option K :=
  (m.entries.find? fun e => k < e.1).map Prod.fst

def erase (m : OrderedMap K V) (k : K) : OrderedMap K V where
  entries := m.entries.filter fun e => e.1 ≠ k
  sorted := m.sorted.filter _

/-- A scan at `position` has gone past this key; `none` is the end. -/
def passed : Option K → K → Bool
  | none, _ => true
  | some k, k' => k' < k

variable {m : OrderedMap K V} {k k' : K} {v v' : V}

theorem key_unique (one : (k, v) ∈ m.entries) (other : (k, v') ∈ m.entries) : v = v' := by
  have later : m.entries.Pairwise fun e e' => e.1 = e'.1 → e.2 = e'.2 :=
    m.sorted.imp fun less same => absurd same (ne_of_lt less)
  have earlier : m.entries.Pairwise fun e e' => e'.1 = e.1 → e'.2 = e.2 :=
    m.sorted.imp fun less same => absurd same (ne_of_gt less)
  exact later.forall_of_forall_of_flip (fun _ _ _ => rfl) earlier one other rfl

theorem find_mem (found : m.find k = some v) : (k, v) ∈ m.entries := by
  obtain ⟨⟨key, value⟩, inside, rfl⟩ := Option.map_eq_some_iff.mp found
  have holds := List.find?_some inside
  obtain rfl : key = k := of_decide_eq_true holds
  exact List.mem_of_find?_eq_some inside

theorem find_of_mem (member : (k, v) ∈ m.entries) : m.find k = some v := by
  cases found : m.find k with
  | none =>
    have absent := List.find?_eq_none.mp (Option.map_eq_none_iff.mp found) (k, v) member
    exact absurd (decide_eq_true rfl) absent
  | some v' => rw [key_unique member (find_mem found)]

theorem erase_sublist : (m.erase k).entries.Sublist m.entries := List.filter_sublist

theorem mem_erase {e : K × V} : e ∈ (m.erase k).entries ↔ e ∈ m.entries ∧ e.1 ≠ k := by
  simp only [erase, List.mem_filter, ne_eq, decide_eq_true_eq]

/-- What `find?` finds is the least of its kind. -/
theorem find?_least {p : K × V → Bool} {e e' : K × V} (found : m.entries.find? p = some e)
    (member : e' ∈ m.entries) (holds : p e' = true) : e.1 ≤ e'.1 := by
  obtain ⟨-, before, after, split, fails⟩ := List.find?_eq_some_iff_append.mp found
  have sorted := m.sorted
  rw [split] at member sorted
  rcases List.mem_append.mp member with first | rest
  · have fails := fails e' first
    rw [holds] at fails
    cases fails
  · rcases List.mem_cons.mp rest with rfl | later
    · exact le_refl _
    · exact le_of_lt (List.rel_of_pairwise_cons (List.pairwise_append.mp sorted).2.1 later)

theorem first_mem (least : m.first = some k) : ∃ v, (k, v) ∈ m.entries := by
  obtain ⟨⟨key, value⟩, head, rfl⟩ := Option.map_eq_some_iff.mp least
  exact ⟨value, List.mem_of_mem_head? head⟩

theorem first_passed {e : K × V} (member : e ∈ m.entries) : passed m.first e.1 = false := by
  have sorted := m.sorted
  rw [first]
  cases entries : m.entries with
  | nil =>
    rw [entries] at member
    cases member
  | cons head rest =>
    rw [entries] at member sorted
    rcases List.mem_cons.mp member with rfl | later
    · exact decide_eq_false (lt_irrefl e.1)
    · exact decide_eq_false (lt_asymm (List.rel_of_pairwise_cons sorted later))

theorem next_mem (least : m.next k = some k') : ∃ v, (k', v) ∈ m.entries := by
  obtain ⟨⟨key, value⟩, found, rfl⟩ := Option.map_eq_some_iff.mp least
  exact ⟨value, List.mem_of_find?_eq_some found⟩

/-- A step further goes past the entry at `k` and no later one. -/
theorem next_passed {e : K × V} (member : e ∈ m.entries) :
    passed (m.next k) e.1 = true ↔ e.1 ≤ k := by
  rw [next]
  cases found : m.entries.find? fun e => k < e.1 with
  | none =>
    have last := List.find?_eq_none.mp found e member
    exact iff_of_true rfl (not_lt.mp (of_decide_eq_false (eq_false_of_ne_true last)))
  | some next =>
    have holds := List.find?_some found
    have above : k < next.1 := of_decide_eq_true holds
    constructor
    · intro past
      by_contra later
      have least := find?_least found member (decide_eq_true (not_le.mp later))
      exact absurd (of_decide_eq_true past) (not_lt.mpr least)
    · exact fun le => decide_eq_true (lt_of_le_of_lt le above)

/-- How many entries a scan has not gone past. -/
def remaining (m : OrderedMap K V) (position : Option K) : Nat :=
  m.entries.countP fun e => !passed position e.1

theorem remaining_le (position : Option K) : m.remaining position ≤ m.entries.length :=
  List.countP_le_length

end Entries

/-- `erased` is a position whose entry is no longer in the map, `bound` a scan that has
not ended within its bound. -/
inductive ScanFault (F : Type*) where
  | erased
  | bound
  | body (fault : F)

section Scan
variable {K V S F : Type*} [LinearOrder K]

/-- The body is given the number of its turn and the value at the position; where it
answers `false` the scan goes back to the start. -/
def scanFrom (map : S → OrderedMap K V) (body : Nat → V → S → Except F (S × Bool)) :
    Nat → Nat → Option K → S → Except (ScanFault F) S
  | 0, _, _, _ => .error .bound
  | _ + 1, _, none, s => .ok s
  | n + 1, turn, some k, s =>
    match (map s).find k with
    | none => .error .erased
    | some v =>
      match body turn v s with
      | .error fault => .error (.body fault)
      | .ok (s', false) => scanFrom map body n (turn + 1) (map s').first s'
      | .ok (s', true) =>
        match (map s').find k with
        | none => .error .erased
        | some _ => scanFrom map body n (turn + 1) ((map s').next k) s'

def scan (map : S → OrderedMap K V) (body : Nat → V → S → Except F (S × Bool)) (bound : Nat)
    (s : S) : Except (ScanFault F) S :=
  scanFrom map body bound 0 (map s).first s

variable {map : S → OrderedMap K V} {body : Nat → V → S → Except F (S × Bool)}

/-- What a turn of the body at an entry may do: nothing, where nothing is pending, else
serve the entry. It erases its own entry only when the scan goes back to the start. -/
inductive Turn (map : S → OrderedMap K V) (pending : S → V → Bool) (s : S) (k : K) (v : V) :
    S → Bool → Prop where
  | rests (idle : pending s v = false) : Turn map pending s k v s true
  | serves {s' : S} {ok : Bool} (waits : pending s v = true)
      (fewer : (map s').entries.Sublist (map s).entries)
      (others : ∀ v', pending s' v' = true → pending s v' = true)
      (served : pending s' v = false) (stays : ok = true → (k, v) ∈ (map s').entries) :
      Turn map pending s k v s' ok

/-- The entries with something pending. -/
def waiting (map : S → OrderedMap K V) (pending : S → V → Bool) (s : S) : Nat :=
  (map s).entries.countP fun e => pending s e.2

theorem countP_lt {α : Type*} {l : List α} {p q : α → Bool} {a : α} (member : a ∈ l)
    (fewer : ∀ b ∈ l, p b = true → q b = true) (before : q a = true) (after : p a = false) :
    l.countP p < l.countP q :=
  calc l.countP p = (l.filter q).countP p := by
        rw [List.countP_filter]
        apply List.countP_congr
        intro b inside
        rw [Bool.and_eq_true]
        exact ⟨fun holds => ⟨holds, fewer b inside holds⟩, And.left⟩
    _ < (l.filter q).length :=
        List.countP_lt_length_iff.mpr ⟨a, List.mem_filter.mpr ⟨member, before⟩, after⟩
    _ = l.countP q := List.countP_eq_length_filter.symm

variable {pending : S → V → Bool} {s s' : S} {k : K} {v : V} {ok : Bool}

theorem remaining_next {m : OrderedMap K V} (member : (k, v) ∈ m.entries) :
    m.remaining (m.next k) < m.remaining (some k) := by
  apply countP_lt member
  · intro e inside ahead
    have ahead : ¬ e.1 ≤ k := by
      rw [← next_passed inside]
      simpa using ahead
    simpa [passed] using le_of_not_ge ahead
  · simp [passed]
  · simpa using (next_passed member).mpr (le_refl k)

/-- Where the scan goes after a turn at `k` that left `s` and answered `ok`. -/
def moved (map : S → OrderedMap K V) (s : S) (k : K) (ok : Bool) : Option K :=
  if ok then (map s).next k else (map s).first

/-- A position is the end or that of an entry, and nothing is pending before it. -/
structure Scanned (map : S → OrderedMap K V) (pending : S → V → Bool) (s : S)
    (position : Option K) : Prop where
  inside : ∀ k, position = some k → ∃ v, (k, v) ∈ (map s).entries
  clear : ∀ e ∈ (map s).entries, passed position e.1 = true → pending s e.2 = false

theorem scanned_first (s : S) : Scanned map pending s (map s).first where
  inside := fun _ least => first_mem least
  clear := by
    intro e member past
    rw [first_passed member] at past
    cases past

theorem Scanned.moved (scanned : Scanned map pending s (some k)) (member : (k, v) ∈ (map s).entries)
    (turn : Turn map pending s k v s' ok) :
    Scanned map pending s' (OrderedMap.moved map s' k ok) := by
  cases ok with
  | false => exact scanned_first s'
  | true =>
    refine ⟨fun _ least => next_mem least, fun e inside past => ?_⟩
    have le : e.1 ≤ k := (next_passed inside).mp past
    rcases lt_or_eq_of_le le with less | rfl
    · cases turn with
      | rests idle => exact scanned.clear e inside (decide_eq_true less)
      | serves waits fewer others served stays =>
        have before := scanned.clear e (fewer.mem inside) (decide_eq_true less)
        apply eq_false_of_ne_true
        intro again
        rw [others e.2 again] at before
        cases before
    · cases turn with
      | rests idle => rwa [key_unique (v := e.2) inside member]
      | serves waits fewer others served stays =>
        rwa [key_unique (v := e.2) (fewer.mem inside) member]

/-- Pending entries weigh more than all the positions together. -/
def rank (map : S → OrderedMap K V) (pending : S → V → Bool) (size : Nat) (s : S)
    (position : Option K) : Nat :=
  waiting map pending s * (size + 1) + (map s).remaining position

theorem Turn.rank {size : Nat} (member : (k, v) ∈ (map s).entries)
    (small : (map s).entries.length ≤ size) (turn : Turn map pending s k v s' ok) :
    OrderedMap.rank map pending size s' (OrderedMap.moved map s' k ok) <
      OrderedMap.rank map pending size s (some k) := by
  cases turn with
  | rests idle => exact Nat.add_lt_add_left (remaining_next member) _
  | serves waits fewer others served stays =>
    have less : waiting map pending s' < waiting map pending s :=
      calc waiting map pending s' ≤ (map s).entries.countP fun e => pending s' e.2 := fewer.countP_le
        _ < waiting map pending s := countP_lt member (fun e _ => others e.2) waits served
    have places : (map s').remaining (OrderedMap.moved map s' k ok) ≤ size :=
      Nat.le_trans (remaining_le _) (Nat.le_trans fewer.length_le small)
    calc waiting map pending s' * (size + 1) + (map s').remaining (OrderedMap.moved map s' k ok)
        < (waiting map pending s' + 1) * (size + 1) := by
          rw [Nat.succ_mul]
          exact Nat.add_lt_add_left (Nat.lt_succ_of_le places) _
      _ ≤ waiting map pending s * (size + 1) := Nat.mul_le_mul_right _ less
      _ ≤ OrderedMap.rank map pending size s (some k) := Nat.le_add_right _ _

theorem scanFrom_turn {bound turn : Nat} (member : (k, v) ∈ (map s).entries)
    (ran : body turn v s = .ok (s', ok)) (made : Turn map pending s k v s' ok) :
    scanFrom map body (bound + 1) turn (some k) s =
      scanFrom map body bound (turn + 1) (moved map s' k ok) s' := by
  rw [scanFrom, find_of_mem member]
  simp only [ran]
  cases ok with
  | false => rfl
  | true =>
    have stays : (k, v) ∈ (map s').entries := by
      cases made with
      | rests idle => exact member
      | serves waits fewer others served stays => exact stays rfl
    simp only [find_of_mem stays]
    rfl

/-- A scan ends, with nothing pending on the entries that are left, when every turn of its
body keeps the invariant and serves the entry it is at. -/
theorem scanFrom_ends {I : S → Prop} {size : Nat} {position : Option K} (turn : Nat)
    (turns : ∀ turn s k v, I s → (k, v) ∈ (map s).entries →
      ∃ s' ok, body turn v s = .ok (s', ok) ∧ I s' ∧ Turn map pending s k v s' ok)
    (holds : I s) (small : (map s).entries.length ≤ size)
    (scanned : Scanned map pending s position) :
    ∃ out, I out ∧ (∀ e ∈ (map out).entries, pending out e.2 = false) ∧
      ∀ bound, rank map pending size s position < bound →
        scanFrom map body bound turn position s = .ok out := by
  induction lower : rank map pending size s position using Nat.strongRecOn
    generalizing s turn position with
  | ind _ ih =>
    subst lower
    cases position with
    | none =>
      refine ⟨s, holds, fun e member => scanned.clear e member rfl, fun bound long => ?_⟩
      cases bound with
      | zero => cases long
      | succ bound => rfl
    | some k =>
      obtain ⟨v, member⟩ := scanned.inside k rfl
      obtain ⟨s', ok, ran, holds', made⟩ := turns turn s k v holds member
      have fewer : (map s').entries.length ≤ size := by
        cases made with
        | rests idle => exact small
        | serves waits fewer others served stays => exact Nat.le_trans fewer.length_le small
      have less := made.rank member small
      obtain ⟨out, final, idle, ends⟩ :=
        ih _ less (turn + 1) holds' fewer (scanned.moved member made) rfl
      refine ⟨out, final, idle, fun bound long => ?_⟩
      cases bound with
      | zero => cases long
      | succ bound =>
        rw [scanFrom_turn member ran made]
        exact ends bound (Nat.lt_of_lt_of_le less (Nat.le_of_lt_succ long))

/-- The same from the start, with a bound in the number of entries. -/
theorem scan_ends {I : S → Prop}
    (turns : ∀ turn s k v, I s → (k, v) ∈ (map s).entries →
      ∃ s' ok, body turn v s = .ok (s', ok) ∧ I s' ∧ Turn map pending s k v s' ok)
    (holds : I s) :
    ∃ out, I out ∧ (∀ e ∈ (map out).entries, pending out e.2 = false) ∧
      ∀ bound, ((map s).entries.length + 1) * ((map s).entries.length + 1) ≤ bound →
        scan map body bound s = .ok out := by
  obtain ⟨out, final, idle, ends⟩ :=
    scanFrom_ends 0 turns holds (Nat.le_refl _) (scanned_first s)
  refine ⟨out, final, idle, fun bound long => ends bound (Nat.lt_of_lt_of_le ?_ long)⟩
  have few : waiting map pending s ≤ (map s).entries.length := List.countP_le_length
  have places := remaining_le (m := map s) (map s).first
  calc rank map pending (map s).entries.length s (map s).first
      < (waiting map pending s + 1) * ((map s).entries.length + 1) := by
        rw [Nat.succ_mul]
        exact Nat.add_lt_add_left (Nat.lt_succ_of_le places) _
    _ ≤ ((map s).entries.length + 1) * ((map s).entries.length + 1) :=
        Nat.mul_le_mul_right _ (Nat.succ_le_succ few)

end Scan
end OrderedMap
