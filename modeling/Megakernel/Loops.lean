import Mathlib.Data.List.Nodup
import Mathlib.Data.Nat.ModEq
import Mathlib.Tactic.Ring

/-!
# Strided loops and aligned chunks

Index sets as a kernel computes them. `forRange a b s` lists what the loop
`for (i = a; i < b; i += s)` visits; the threads of a launch share such a loop by
starting at their own number and stepping by the number of threads
(`existsUnique_thread`). A window `[0, n)` is cut into chunks of equal length,
rounded up so that every chunk starts at a multiple of a tile; the last chunks
come out short or empty, and still every index lies in exactly one chunk
(`existsUnique_chunk`).

Everything is about natural numbers without bounds. Where the code computes in 32 bits, the
agreement with these functions is shown where the code is modelled, with the bounds that it needs.
-/

namespace Loops

/-! ## Strided loops -/

/-- The indices of `for (i = a; i < b; i += s)`. With `s = 0` the list is empty, while the loop in
the code would not end; no stride of the code is 0. -/
def forRange (a b s : ℕ) : List ℕ := (List.range ((b - a + s - 1) / s)).map fun k => a + s * k

/-- The loop comes to its round `k`. -/
theorem lt_length_forRange {a b s k : ℕ} (hs : 0 < s) :
    k < (forRange a b s).length ↔ a + s * k < b := by
  rw [forRange, List.length_map, List.length_range, ← Nat.succ_le_iff, Nat.le_div_iff_mul_le hs,
    Nat.succ_mul, Nat.mul_comm]
  omega

theorem mem_forRange {a b s i : ℕ} (hs : 0 < s) :
    i ∈ forRange a b s ↔ i < b ∧ ∃ k, i = a + s * k := by
  simp only [forRange, List.mem_map, List.mem_range]
  constructor
  · rintro ⟨k, hk, rfl⟩
    have hlt : s * k < b - a := by
      have := Nat.mul_le_of_le_div s (k + 1) _ hk
      rw [Nat.add_mul, Nat.one_mul, Nat.mul_comm k] at this
      omega
    exact ⟨by omega, k, rfl⟩
  · rintro ⟨hi, k, rfl⟩
    refine ⟨k, ?_, rfl⟩
    refine (Nat.le_div_iff_mul_le hs).mpr ?_
    rw [Nat.succ_mul, Nat.mul_comm]
    omega

/-- Threads that start at their own number and step by the number of threads share a loop: each
index is visited by one thread, in one round. -/
theorem existsUnique_thread {n threads i : ℕ} (ht : 0 < threads) (hi : i < n) :
    ∃! t, t < threads ∧ i ∈ forRange t n threads := by
  refine ⟨i % threads, ⟨Nat.mod_lt i ht, ?_⟩, ?_⟩
  · exact (mem_forRange ht).mpr ⟨hi, i / threads, (Nat.mod_add_div i threads).symm⟩
  · rintro t ⟨hlt, hmem⟩
    obtain ⟨-, k, rfl⟩ := (mem_forRange ht).mp hmem
    rw [Nat.add_mul_mod_self_left, Nat.mod_eq_of_lt hlt]

theorem nodup_forRange {a b s : ℕ} (hs : 0 < s) : (forRange a b s).Nodup := by
  refine List.Nodup.map (fun k k' hk => ?_) List.nodup_range
  exact Nat.eq_of_mul_eq_mul_left hs (Nat.add_left_cancel hk)

/-- The threads of a launch run through the indices of a range, each index once. -/
theorem flatMap_forRange_perm (lo hi : ℕ) {threads : ℕ} (ht : 0 < threads) :
    ((List.range threads).flatMap fun t => forRange (lo + t) hi threads).Perm
      (List.range' lo (hi - lo)) := by
  refine (List.perm_ext_iff_of_nodup ?_ List.nodup_range').mpr fun i => ?_
  · refine List.nodup_flatMap.mpr ⟨fun t _ => nodup_forRange ht, ?_⟩
    refine List.Nodup.pairwise_of_forall_ne List.nodup_range fun t hlt t' hlt' hne i hi hi' =>
      hne ?_
    obtain ⟨-, k, rfl⟩ := (mem_forRange ht).mp hi
    obtain ⟨-, k', heq⟩ := (mem_forRange ht).mp hi'
    rw [Nat.add_assoc, Nat.add_assoc] at heq
    have hmod := congrArg (· % threads) (Nat.add_left_cancel heq)
    simp only [Nat.add_mul_mod_self_left] at hmod
    rwa [Nat.mod_eq_of_lt (List.mem_range.mp hlt),
      Nat.mod_eq_of_lt (List.mem_range.mp hlt')] at hmod
  · rw [List.mem_flatMap, List.mem_range'_1]
    constructor
    · rintro ⟨t, -, hi⟩
      obtain ⟨hlt, k, rfl⟩ := (mem_forRange ht).mp hi
      omega
    · rintro ⟨hle, hlt⟩
      have hmod := Nat.mod_add_div (i - lo) threads
      refine ⟨(i - lo) % threads, List.mem_range.mpr (Nat.mod_lt _ ht), ?_⟩
      exact (mem_forRange ht).mpr ⟨by omega, (i - lo) / threads, by omega⟩

/-- Blocks of threads, numbered through. -/
theorem flatMap_blocks {α : Type*} (f : ℕ → List α) (blocks threads : ℕ) :
    ((List.range blocks).flatMap fun b =>
      (List.range threads).flatMap fun t => f (b * threads + t)) =
      (List.range (blocks * threads)).flatMap f := by
  induction blocks with
  | zero => simp
  | succ blocks ih =>
    rw [List.range_succ, List.flatMap_append, ih, Nat.succ_mul, List.range_add, List.flatMap_append,
      List.flatMap_singleton, List.flatMap_map]

/-- Pointwise writes of values that do not depend on the order. -/
theorem foldl_write {ι α κ : Type*} [DecidableEq κ] (key : ι → κ) (g : ι → α) :
    ∀ (l : List κ) (c : ι → α),
      l.foldl (fun c k i => if key i = k then g i else c i) c =
        fun i => if key i ∈ l then g i else c i
  | [], c => by simp
  | k :: l, c => by
    rw [List.foldl_cons, foldl_write key g l]
    funext i
    by_cases hl : key i ∈ l
    · simp [hl]
    · by_cases hk : key i = k <;> simp [hl, hk]

/-- The stores `ws` one after the other. Where two of them go to one place the later one stays, and
the lemmas below say when the order does not matter. -/
def store {κ α : Type*} [DecidableEq κ] (ws : List (κ × α)) (m : κ → α) : κ → α :=
  ws.foldl (fun m w => Function.update m w.1 w.2) m

/-- Stores of values that are told by their places. -/
theorem store_eq {κ α : Type*} [DecidableEq κ] {g : κ → α} {ws : List (κ × α)}
    (h : ∀ w ∈ ws, w.2 = g w.1) (m : κ → α) :
    store ws m = fun k => if k ∈ ws.map Prod.fst then g k else m k := by
  induction ws generalizing m with
  | nil => simp [store]
  | cons w ws ih =>
    obtain ⟨hw, hws⟩ := List.forall_mem_cons.mp h
    rw [store, List.foldl_cons, ← store, ih hws]
    funext k
    by_cases hk : k ∈ ws.map Prod.fst
    · rw [if_pos hk, if_pos (by rw [List.map_cons]; exact List.mem_cons_of_mem _ hk)]
    · rw [if_neg hk]
      by_cases hkw : k = w.1
      · rw [hkw, Function.update_self, hw, if_pos (by simp)]
      · rw [Function.update_of_ne hkw, if_neg (by simp only [List.map_cons, List.mem_cons]; tauto)]

/-- What is not stored to is unchanged. -/
theorem store_of_notMem {κ α : Type*} [DecidableEq κ] {ws : List (κ × α)} {k : κ}
    (h : k ∉ ws.map Prod.fst) (m : κ → α) : store ws m k = m k := by
  induction ws generalizing m with
  | nil => rfl
  | cons w ws ih =>
    rw [List.map_cons, List.mem_cons, not_or] at h
    rw [store, List.foldl_cons, ← store, ih h.2, Function.update_of_ne h.1]

theorem store_of_mem {κ α : Type*} [DecidableEq κ] (g : κ → α) {ws : List (κ × α)} {k : κ}
    (h : ∀ w ∈ ws, w.2 = g w.1) (hk : (k, g k) ∈ ws) (m : κ → α) : store ws m k = g k := by
  rw [store_eq h]
  exact if_pos (List.mem_map.mpr ⟨(k, g k), hk, rfl⟩)

/-- Stores to places that tell the indices. -/
theorem store_map_of_mem {ι κ α : Type*} [DecidableEq ι] [DecidableEq κ] {f : ι → κ}
    (hf : Function.Injective f) (v : ι → α) {is : List ι} {i : ι} (hi : i ∈ is) (m : κ → α) :
    store (is.map fun i => (f i, v i)) m (f i) = v i := by
  induction is generalizing m with
  | nil => cases hi
  | cons j is ih =>
    rw [store, List.map_cons, List.foldl_cons, ← store]
    by_cases hmem : i ∈ is
    · exact ih hmem _
    · obtain rfl := (List.mem_cons.mp hi).resolve_right hmem
      rw [store_of_notMem, Function.update_self]
      rw [List.map_map, List.mem_map]
      rintro ⟨i', hi', heq⟩
      exact hmem (hf heq ▸ hi')

theorem store_map_of_ne {ι κ α : Type*} [DecidableEq κ] {f : ι → κ} (v : ι → α)
    {is : List ι} {k : κ}
    (h : ∀ i ∈ is, k ≠ f i) (m : κ → α) : store (is.map fun i => (f i, v i)) m k = m k := by
  refine store_of_notMem (fun hmem => ?_) m
  rw [List.map_map, List.mem_map] at hmem
  obtain ⟨i, hi, rfl⟩ := hmem
  exact h i hi rfl

/-! ## Rounding up -/

/-- Round `v` up to a multiple of `m`. -/
def padUp (v m : ℕ) : ℕ := (v + m - 1) / m * m

theorem dvd_padUp (v m : ℕ) : m ∣ padUp v m := Nat.dvd_mul_left m _

theorem le_padUp {m : ℕ} (v : ℕ) (hm : 0 < m) : v ≤ padUp v m := by
  have h := Nat.div_add_mod (v + m - 1) m
  have hlt := Nat.mod_lt (v + m - 1) hm
  rw [padUp, Nat.mul_comm]
  omega

theorem padUp_lt {m : ℕ} (v : ℕ) (hm : 0 < m) : padUp v m < v + m := by
  have h := Nat.div_mul_le_self (v + m - 1) m
  rw [padUp]
  omega

/-- The padded value is the least multiple that is not below. -/
theorem padUp_le {v m k : ℕ} (hm : 0 < m) (hd : m ∣ k) (hv : v ≤ k) : padUp v m ≤ k := by
  obtain ⟨q, rfl⟩ := hd
  obtain ⟨p, hp⟩ := dvd_padUp v m
  have hlt := padUp_lt v hm
  rw [hp] at hlt ⊢
  refine Nat.mul_le_mul_left m ?_
  refine Nat.le_of_lt_succ (Nat.lt_of_mul_lt_mul_left (a := m) ?_)
  rw [Nat.mul_succ]
  omega

/-! ## Chunks -/

/-- The length of a chunk: an equal share of the window, rounded up to whole tiles. With the
rounding, fewer chunks than there are may be enough for the window. -/
def chunkLen (tile n chunks : ℕ) : ℕ := padUp ((n + chunks - 1) / chunks) tile

/-- The first index of chunk `c`. -/
def chunkLo (tile n chunks c : ℕ) : ℕ := min (c * chunkLen tile n chunks) n

/-- One past the last index of chunk `c`. It is capped at the end of the window, and below `chunkLo`
it stands for an empty chunk. -/
def chunkHi (tile n chunks c : ℕ) : ℕ := min (chunkLo tile n chunks c + chunkLen tile n chunks) n

section Chunks

variable {tile n chunks : ℕ}

/-- Equal shares cover the window. -/
theorem le_mul_share (n : ℕ) (hc : 0 < chunks) : n ≤ chunks * ((n + chunks - 1) / chunks) := by
  rw [Nat.mul_comm]
  exact le_padUp n hc

theorem le_mul_chunkLen (ht : 0 < tile) (hc : 0 < chunks) : n ≤ chunks * chunkLen tile n chunks :=
  (le_mul_share n hc).trans (Nat.mul_le_mul_left _ (le_padUp _ ht))

/-- The multiples of the length that chunks start at exceed the window by little. -/
theorem mul_chunkLen_le (ht : 0 < tile) (hc : 0 < chunks) {c : ℕ} (h : c ≤ chunks) :
    c * chunkLen tile n chunks ≤ n + chunks * (tile + 1) := by
  have hshare : chunks * ((n + chunks - 1) / chunks) < n + chunks := by
    rw [Nat.mul_comm]
    exact padUp_lt n hc
  have hlen : chunkLen tile n chunks ≤ (n + chunks - 1) / chunks + tile := (padUp_lt _ ht).le
  calc c * chunkLen tile n chunks
      ≤ chunks * ((n + chunks - 1) / chunks + tile) := Nat.mul_le_mul h hlen
    _ = chunks * ((n + chunks - 1) / chunks) + chunks * tile := Nat.mul_add _ _ _
    _ ≤ n + chunks * (tile + 1) := by
      rw [Nat.mul_succ]
      omega

theorem dvd_chunkLo (hn : tile ∣ n) (c : ℕ) : tile ∣ chunkLo tile n chunks c := by
  obtain h | h := min_choice (c * chunkLen tile n chunks) n
  · rw [chunkLo, h]
    exact Dvd.dvd.mul_left (dvd_padUp _ tile) c
  · rw [chunkLo, h]
    exact hn

theorem chunkHi_le (c : ℕ) : chunkHi tile n chunks c ≤ n := Nat.min_le_right _ _

/-- Chunks follow one another. -/
theorem chunkHi_eq (tile n chunks c : ℕ) :
    chunkHi tile n chunks c = chunkLo tile n chunks (c + 1) := by
  rw [chunkHi, chunkLo, chunkLo, Nat.add_mul, Nat.one_mul]
  omega

theorem chunkLo_mono {c c' : ℕ} (h : c ≤ c') : chunkLo tile n chunks c ≤ chunkLo tile n chunks c' :=
  min_le_min_right n (Nat.mul_le_mul_right _ h)

/-- An index of the window lies in chunk `c` when its quotient by the length is `c`. All facts about
the partition follow from this one. -/
theorem mem_chunk_iff {c j : ℕ} (hj : j < n) :
    chunkLo tile n chunks c ≤ j ∧ j < chunkHi tile n chunks c ↔
      c * chunkLen tile n chunks ≤ j ∧ j < (c + 1) * chunkLen tile n chunks := by
  rw [chunkHi, chunkLo, Nat.add_mul, Nat.one_mul]
  omega

/-- **Every index of the window lies in exactly one chunk.** -/
theorem existsUnique_chunk (ht : 0 < tile) (hc : 0 < chunks) {j : ℕ} (hj : j < n) :
    ∃! c, c < chunks ∧ chunkLo tile n chunks c ≤ j ∧ j < chunkHi tile n chunks c := by
  have hcover := le_mul_chunkLen (n := n) ht hc
  have hlen : 0 < chunkLen tile n chunks := by
    refine Nat.pos_of_ne_zero fun h0 => ?_
    rw [h0, Nat.mul_zero] at hcover
    omega
  refine ⟨j / chunkLen tile n chunks, ⟨?_, (mem_chunk_iff hj).mpr ⟨?_, ?_⟩⟩, ?_⟩
  · exact Nat.div_lt_of_lt_mul (by rw [Nat.mul_comm]; omega)
  · exact Nat.div_mul_le_self _ _
  · rw [Nat.add_mul, Nat.one_mul]
    exact Nat.lt_div_mul_add hlen
  · rintro c ⟨-, hmem⟩
    obtain ⟨hlo, hhi⟩ := (mem_chunk_iff hj).mp hmem
    exact (Nat.div_eq_of_lt_le hlo hhi).symm

end Chunks

end Loops
