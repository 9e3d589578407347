import Mathlib.Data.Nat.Log
import Mathlib.Data.List.Basic
import Mathlib.Tactic.Ring
import Mathlib.Tactic.SplitIfs

/-!
Binary hash trees over any number of leaves. A level of odd width repeats its
last node, so every level is half as wide as the one below it, rounded up. The
tree is given by its leaves, their number and the function that joins two
nodes. Two trees with one root have the same leaves, unless a pair they join
collides, a leaf is a joined pair, or a leaf is there twice.
-/

namespace UmbrellaLtc.HashTree

section Width

/-- The number of nodes at height `k` over `n` leaves. -/
def width (n k : ℕ) : ℕ := (n + 2 ^ k - 1) / 2 ^ k

theorem lt_width_iff (n k p : ℕ) : p < width n k ↔ p * 2 ^ k < n := by
  have hpow : 0 < 2 ^ k := Nat.two_pow_pos k
  unfold width
  rw [Nat.lt_iff_add_one_le, Nat.le_div_iff_mul_le hpow, Nat.add_mul]
  omega

theorem width_zero (n : ℕ) : width n 0 = n := by simp [width]

/-- Two widths are equal when the same positions are in both. -/
theorem width_unique {a b : ℕ} (h : ∀ p, p < a ↔ p < b) : a = b := by
  have hab := h a
  have hba := h b
  omega

theorem width_succ (n k : ℕ) : width n (k + 1) = (width n k + 1) / 2 := by
  apply width_unique
  intro p
  have hleft := lt_width_iff n (k + 1) p
  have hright := lt_width_iff n k (2 * p)
  have hpow : p * 2 ^ (k + 1) = 2 * p * 2 ^ k := by ring
  rw [hpow] at hleft
  omega

theorem width_pos {n : ℕ} (k : ℕ) (hn : 0 < n) : 0 < width n k := by
  rw [lt_width_iff]
  omega

theorem width_le_one_iff (n k : ℕ) : width n k ≤ 1 ↔ n ≤ 2 ^ k := by
  have h := lt_width_iff n k 1
  omega

/-- The height of the root. -/
def height (n : ℕ) : ℕ := Nat.clog 2 n

theorem height_le_iff (n k : ℕ) : height n ≤ k ↔ width n k ≤ 1 := by
  rw [width_le_one_iff]
  exact Nat.clog_le_iff_le_pow (by omega)

theorem width_height {n : ℕ} (hn : 0 < n) : width n (height n) = 1 := by
  have hle := (height_le_iff n (height n)).mp (le_refl _)
  have hpos := width_pos (height n) hn
  omega

end Width

variable {α : Type*}

/-- The position of the right child: the left one again where there is none. -/
def rightChild (n k p : ℕ) : ℕ := if 2 * p + 1 < width n k then 2 * p + 1 else 2 * p

theorem leftChild_lt {n k p : ℕ} (hp : p < width n (k + 1)) : 2 * p < width n k := by
  rw [width_succ] at hp
  omega

theorem rightChild_lt {n k p : ℕ} (hp : p < width n (k + 1)) :
    rightChild n k p < width n k := by
  have hleft := leftChild_lt hp
  unfold rightChild
  split_ifs with hlast
  · exact hlast
  · exact hleft

/-- Where two levels are equally wide, so are their pairs. -/
theorem rightChild_congr {n m k : ℕ} (hwidth : width n k = width m k) (p : ℕ) :
    rightChild n k p = rightChild m k p := by
  unfold rightChild
  rw [hwidth]

section Nodes

variable (h : α → α → α) (leaf : ℕ → α) (n : ℕ)

/-- The node at height `k` and position `p`. -/
def node : ℕ → ℕ → α
  | 0, p => leaf p
  | k + 1, p => h (node k (2 * p)) (node k (rightChild n k p))

def level (k : ℕ) : List α := (List.range (width n k)).map (node h leaf n k)

def root : α := node h leaf n (height n) 0

/-- The pairs that are joined under the root. -/
def joined : List (α × α) :=
  (List.range (height n)).flatMap fun k => (List.range (width n (k + 1))).map fun p =>
    (node h leaf n k (2 * p), node h leaf n k (rightChild n k p))

theorem level_length (k : ℕ) : (level h leaf n k).length = width n k := by simp [level]

theorem level_getElem? (k p : ℕ) (hp : p < width n k) :
    (level h leaf n k)[p]? = some (node h leaf n k p) := by
  simp [level, hp]

theorem mem_joined {k p : ℕ} (hk : k < height n) (hp : p < width n (k + 1)) :
    (node h leaf n k (2 * p), node h leaf n k (rightChild n k p)) ∈ joined h leaf n := by
  refine List.mem_flatMap.mpr ⟨k, List.mem_range.mpr hk, ?_⟩
  exact List.mem_map.mpr ⟨p, List.mem_range.mpr hp, rfl⟩

end Nodes

/-- Joining is injective on the pairs and never gives a leaf. -/
structure Separates (h : α → α → α) (pairs : List (α × α)) (leaves : List α) : Prop where
  inj : ∀ p ∈ pairs, ∀ q ∈ pairs, h p.1 p.2 = h q.1 q.2 → p = q
  fresh : ∀ p ∈ pairs, h p.1 p.2 ∉ leaves

/-- Only the pairs of the list are looked at, whatever the type is. -/
instance [DecidableEq α] (h : α → α → α) (pairs : List (α × α)) (leaves : List α) :
    Decidable (Separates h pairs leaves) :=
  have inj : Decidable (∀ p ∈ pairs, ∀ q ∈ pairs, h p.1 p.2 = h q.1 q.2 → p = q) :=
    @List.decidableBAll _ _ (fun _ => List.decidableBAll _ _) _
  have fresh : Decidable (∀ p ∈ pairs, h p.1 p.2 ∉ leaves) := List.decidableBAll _ _
  match inj, fresh with
  | isTrue hinj, isTrue hfresh => isTrue ⟨hinj, hfresh⟩
  | isFalse hinj, _ => isFalse fun hsep => hinj hsep.inj
  | _, isFalse hfresh => isFalse fun hsep => hfresh hsep.fresh

section Binding

variable {h : α → α → α} {a b : ℕ → α} {n m : ℕ}

/-- What the pairs and leaves of two trees satisfy. -/
def Apart (h : α → α → α) (a : ℕ → α) (n : ℕ) (b : ℕ → α) (m : ℕ) : Prop :=
  Separates h (joined h a n ++ joined h b m) ((List.range n).map a ++ (List.range m).map b)

theorem Apart.symm (hsep : Apart h a n b m) : Apart h b m a n := by
  refine ⟨?_, ?_⟩
  · intro p hp q hq
    exact hsep.inj p (List.mem_append.mpr (List.mem_append.mp hp).symm) q
      (List.mem_append.mpr (List.mem_append.mp hq).symm)
  · intro p hp hmem
    exact hsep.fresh p (List.mem_append.mpr (List.mem_append.mp hp).symm)
      (List.mem_append.mpr (List.mem_append.mp hmem).symm)

/-- Equal nodes of the two trees, above the leaves, have equal children. -/
theorem Apart.children (hsep : Apart h a n b m) {j k p q : ℕ} (hj : j < height n)
    (hk : k < height m) (hp : p < width n (j + 1)) (hq : q < width m (k + 1))
    (heq : node h a n (j + 1) p = node h b m (k + 1) q) :
    node h a n j (2 * p) = node h b m k (2 * q) ∧
      node h a n j (rightChild n j p) = node h b m k (rightChild m k q) := by
  have hpair := hsep.inj _ (List.mem_append_left _ (mem_joined h a n hj hp)) _
    (List.mem_append_right _ (mem_joined h b m hk hq)) heq
  exact Prod.mk.inj hpair

/-- Two equal nodes of one level have the same first leaf. -/
theorem Apart.firstLeaf (hsep : Apart h a n b m) {k p q : ℕ} (hk : k ≤ height m)
    (hp : p < width m k) (hq : q < width m k) (heq : node h b m k p = node h b m k q) :
    b (p * 2 ^ k) = b (q * 2 ^ k) := by
  induction k generalizing p q with
  | zero => simpa [node] using heq
  | succ k ih =>
    have hpair := hsep.inj _ (List.mem_append_right _ (mem_joined h b m (by omega) hp)) _
      (List.mem_append_right _ (mem_joined h b m (by omega) hq)) heq
    have hleft := ih (by omega) (leftChild_lt hp) (leftChild_lt hq) (Prod.mk.inj hpair).1
    have hpow : ∀ x : ℕ, x * 2 ^ (k + 1) = 2 * x * 2 ^ k := fun x => by ring
    rw [hpow, hpow]
    exact hleft

/-- A level without repeated nodes, when the leaves have none. -/
theorem Apart.node_inj (hsep : Apart h a n b m) (hb : ∀ i < m, ∀ j < m, b i = b j → i = j)
    {k p q : ℕ} (hk : k ≤ height m) (hp : p < width m k) (hq : q < width m k)
    (heq : node h b m k p = node h b m k q) : p = q := by
  have hleaf := hb _ ((lt_width_iff m k p).mp hp) _ ((lt_width_iff m k q).mp hq)
    (hsep.firstLeaf hk hp hq heq)
  exact Nat.eq_of_mul_eq_mul_right (Nat.two_pow_pos k) hleaf

/-- A leaf at the far left of one tree is no inner node of the other. -/
theorem Apart.leftmost (hsep : Apart h a n b m) (hn : 0 < n) (hm : 0 < m) {j k : ℕ}
    (hj : j ≤ height n) (hk : k ≤ height m) (heq : node h a n j 0 = node h b m k 0) : k ≤ j := by
  induction j generalizing k with
  | zero =>
    cases k with
    | zero => omega
    | succ k =>
      exfalso
      have hfresh := hsep.fresh _
        (List.mem_append_right _ (mem_joined h b m (by omega) (width_pos (k + 1) hm)))
      apply hfresh
      have hleaf : a 0 ∈ (List.range n).map a := List.mem_map.mpr ⟨0, List.mem_range.mpr hn, rfl⟩
      have hnode : a 0 = node h b m (k + 1) 0 := heq
      rw [hnode] at hleaf
      exact List.mem_append_left _ hleaf
  | succ j ih =>
    cases k with
    | zero => omega
    | succ k =>
      have hchildren := hsep.children (by omega) (by omega) (width_pos (j + 1) hn)
        (width_pos (k + 1) hm) heq
      have hle := ih (by omega) (by omega) hchildren.1
      omega

/-- A level one wider than the other, under equal levels, repeats a node. -/
theorem Apart.not_wider (hsep : Apart h a n b m)
    (hb : ∀ i < m, ∀ j < m, b i = b j → i = j) {k : ℕ} (hkn : k < height n) (hkm : k < height m)
    (hwidth : width n (k + 1) = width m (k + 1))
    (hnodes : ∀ p < width n (k + 1), node h a n (k + 1) p = node h b m (k + 1) p) :
    width m k ≤ width n k := by
  by_contra hlt
  have hn := width_succ n k
  have hm := width_succ m k
  -- the last pair of the narrow level is one node twice
  have hp : width n (k + 1) - 1 < width n (k + 1) := by omega
  obtain ⟨hleft, hright⟩ := hsep.children hkn hkm hp (by omega) (hnodes _ hp)
  have hself : rightChild n k (width n (k + 1) - 1) = 2 * (width n (k + 1) - 1) :=
    if_neg (by omega)
  have hnext : rightChild m k (width n (k + 1) - 1) = 2 * (width n (k + 1) - 1) + 1 :=
    if_pos (by omega)
  rw [hself] at hright
  rw [hnext] at hright
  have hsame := hsep.node_inj hb (by omega) (by omega) (by omega) (hleft.symm.trans hright)
  omega

theorem Apart.descend (hsep : Apart h a n b m) (ha : ∀ i < n, ∀ j < n, a i = a j → i = j)
    (hb : ∀ i < m, ∀ j < m, b i = b j → i = j) {k : ℕ} (hkn : k < height n) (hkm : k < height m)
    (hwidth : width n (k + 1) = width m (k + 1))
    (hnodes : ∀ p < width n (k + 1), node h a n (k + 1) p = node h b m (k + 1) p) :
    width n k = width m k ∧ ∀ p < width n k, node h a n k p = node h b m k p := by
  have hle := hsep.not_wider hb hkn hkm hwidth hnodes
  have hge := hsep.symm.not_wider ha hkm hkn hwidth.symm fun p hp =>
    (hnodes p (by omega)).symm
  have hsame : width n k = width m k := by omega
  refine ⟨hsame, fun p hp => ?_⟩
  have hup := width_succ n k
  obtain ⟨hleft, hright⟩ := hsep.children (p := p / 2) (q := p / 2) hkn hkm (by omega) (by omega)
    (hnodes (p / 2) (by omega))
  rw [← rightChild_congr hsame] at hright
  by_cases heven : p % 2 = 0
  · have hp2 : 2 * (p / 2) = p := by omega
    rwa [hp2] at hleft
  · have hp2 : rightChild n k (p / 2) = p := by
      unfold rightChild
      split_ifs with hlast
      · omega
      · omega
    rwa [hp2] at hright

/-- The leaves of a tree are bound by its root. -/
theorem Apart.leaves_eq (hsep : Apart h a n b m) (hn : 0 < n) (hm : 0 < m)
    (ha : ∀ i < n, ∀ j < n, a i = a j → i = j) (hb : ∀ i < m, ∀ j < m, b i = b j → i = j)
    (hroot : root h a n = root h b m) : n = m ∧ ∀ i < n, a i = b i := by
  have hheight : height n = height m := by
    have hle := hsep.leftmost hn hm (le_refl _) (le_refl _) hroot
    have hge := hsep.symm.leftmost hm hn (le_refl _) (le_refl _) hroot.symm
    omega
  -- from the root down, the levels of the two trees are equal
  have hlevel : ∀ j k, j + k = height n →
      width n k = width m k ∧ ∀ p < width n k, node h a n k p = node h b m k p := by
    intro j
    induction j with
    | zero =>
      intro k hk
      obtain rfl : k = height n := by omega
      have hwn := width_height hn
      have hwm := width_height hm
      rw [← hheight] at hwm
      refine ⟨by omega, fun p hp => ?_⟩
      obtain rfl : p = 0 := by omega
      have heq := hroot
      unfold root at heq
      rwa [← hheight] at heq
    | succ j ih =>
      intro k hk
      obtain ⟨hwidth, hnodes⟩ := ih (k + 1) (by omega)
      exact hsep.descend ha hb (by omega) (by omega) hwidth hnodes
  have hleaves := hlevel (height n) 0 (by omega)
  rwa [width_zero, width_zero] at hleaves

end Binding

section Repeated

variable {h : α → α → α} {a b : ℕ → α} {n m k : ℕ}

/-- The level `k` of the second tree is that of the first, of odd width, with its
last node once more. -/
structure RepeatsLast (h : α → α → α) (a : ℕ → α) (n : ℕ) (b : ℕ → α) (m k : ℕ) : Prop where
  odd : width n k % 2 = 1
  many : 1 < width n k
  level_eq : level h b m k = level h a n k ++ [node h a n k (width n k - 1)]

theorem RepeatsLast.width_eq (hrep : RepeatsLast h a n b m k) : width m k = width n k + 1 := by
  have hlen := congrArg List.length hrep.level_eq
  simpa [level_length] using hlen

theorem RepeatsLast.node_eq (hrep : RepeatsLast h a n b m k) {p : ℕ} (hp : p < width n k) :
    node h b m k p = node h a n k p := by
  have hwidth := hrep.width_eq
  have hget : (level h b m k)[p]? = _ := congrArg (fun l => l[p]?) hrep.level_eq
  rw [level_getElem? h b m k p (by omega),
    List.getElem?_append_left (by simpa [level_length] using hp),
    level_getElem? h a n k p hp] at hget
  exact Option.some.inj hget

theorem RepeatsLast.last_eq (hrep : RepeatsLast h a n b m k) :
    node h b m k (width n k) = node h a n k (width n k - 1) := by
  have hwidth := hrep.width_eq
  have hget : (level h b m k)[width n k]? = _ := congrArg (fun l => l[width n k]?) hrep.level_eq
  rw [level_getElem? h b m k _ (by omega),
    List.getElem?_append_right (by simp [level_length])] at hget
  simpa [level_length] using hget

/-- The levels above the repeated node are the same. -/
theorem RepeatsLast.above (hrep : RepeatsLast h a n b m k) (j : ℕ) :
    width m (k + 1 + j) = width n (k + 1 + j) ∧
      ∀ p < width n (k + 1 + j), node h b m (k + 1 + j) p = node h a n (k + 1 + j) p := by
  have hodd := hrep.odd
  have hwidth := hrep.width_eq
  induction j with
  | zero =>
    have hn := width_succ n k
    have hm := width_succ m k
    rw [Nat.add_zero]
    refine ⟨by omega, fun p hp => ?_⟩
    have hright : node h b m k (rightChild m k p) = node h a n k (rightChild n k p) := by
      by_cases hlast : 2 * p + 1 < width n k
      · have hpn : rightChild n k p = 2 * p + 1 := if_pos hlast
        have hpm : rightChild m k p = 2 * p + 1 := if_pos (by omega)
        rw [hpn, hpm]
        exact hrep.node_eq hlast
      · have hpn : rightChild n k p = width n k - 1 := by
          unfold rightChild
          rw [if_neg hlast]
          omega
        have hpm : rightChild m k p = width n k := by
          unfold rightChild
          rw [if_pos (by omega)]
          omega
        rw [hpn, hpm]
        exact hrep.last_eq
    show h _ _ = h _ _
    rw [hright, hrep.node_eq (by omega)]
  | succ j ih =>
    obtain ⟨hw, hnodes⟩ := ih
    have hn := width_succ n (k + 1 + j)
    have hm := width_succ m (k + 1 + j)
    rw [← Nat.add_assoc]
    refine ⟨by omega, fun p hp => ?_⟩
    show h _ _ = h _ _
    rw [rightChild_congr hw, hnodes _ (leftChild_lt hp), hnodes _ (rightChild_lt hp)]

theorem RepeatsLast.height_eq (hrep : RepeatsLast h a n b m k) : height m = height n := by
  have hmany := hrep.many
  have hwidth := hrep.width_eq
  have hkn : ¬ height n ≤ k := by
    rw [height_le_iff]
    omega
  have hkm : ¬ height m ≤ k := by
    rw [height_le_iff]
    omega
  have hle := hrep.above (height n - (k + 1))
  have hge := hrep.above (height m - (k + 1))
  rw [show k + 1 + (height n - (k + 1)) = height n by omega] at hle
  rw [show k + 1 + (height m - (k + 1)) = height m by omega] at hge
  have hmn : height m ≤ height n := by
    rw [height_le_iff, hle.1, ← height_le_iff]
  have hnm : height n ≤ height m := by
    rw [height_le_iff, ← hge.1, ← height_le_iff]
  omega

/-- A last node that is there once more leaves the root as it is. -/
theorem RepeatsLast.root_eq (hrep : RepeatsLast h a n b m k) (hn : 0 < n) :
    root h b m = root h a n := by
  have hmany := hrep.many
  have hkn : ¬ height n ≤ k := by
    rw [height_le_iff]
    omega
  have habove := (hrep.above (height n - (k + 1))).2 0
  rw [show k + 1 + (height n - (k + 1)) = height n by omega, width_height hn] at habove
  unfold root
  rw [hrep.height_eq]
  exact habove (by omega)

/-- Complete nodes over the same leaves are equal. -/
theorem node_congr {j p q : ℕ} (hp : (p + 1) * 2 ^ j ≤ m) (hq : (q + 1) * 2 ^ j ≤ n)
    (hleaves : ∀ i < 2 ^ j, b (p * 2 ^ j + i) = a (q * 2 ^ j + i)) :
    node h b m j p = node h a n j q := by
  induction j generalizing p q with
  | zero => simpa [node] using hleaves 0 (by omega)
  | succ j ih =>
    have hpow : ∀ x : ℕ, x * 2 ^ (j + 1) = 2 * x * 2 ^ j := fun x => by ring
    have hhalf : ∀ x : ℕ, (2 * x + 1) * 2 ^ j = 2 * x * 2 ^ j + 2 ^ j := fun x => by ring
    have htwo : ∀ x : ℕ, (2 * x + 1 + 1) * 2 ^ j = 2 * x * 2 ^ j + 2 ^ j + 2 ^ j := fun x => by ring
    have hfull : ∀ x : ℕ, (x + 1) * 2 ^ (j + 1) = 2 * x * 2 ^ j + 2 ^ j + 2 ^ j := fun x => by ring
    have hdouble : 2 ^ (j + 1) = 2 ^ j + 2 ^ j := by ring
    have hpos : 0 < 2 ^ j := Nat.two_pow_pos j
    rw [hfull] at hp hq
    rw [hpow, hpow, hdouble] at hleaves
    have hpright : rightChild m j p = 2 * p + 1 := by
      refine if_pos ?_
      rw [lt_width_iff, hhalf]
      omega
    have hqright : rightChild n j q = 2 * q + 1 := by
      refine if_pos ?_
      rw [lt_width_iff, hhalf]
      omega
    show h _ _ = h _ _
    rw [hpright, hqright]
    rw [ih (p := 2 * p) (q := 2 * q) (by rw [hhalf]; omega) (by rw [hhalf]; omega)
      fun i hi => hleaves i (by omega)]
    rw [ih (p := 2 * p + 1) (q := 2 * q + 1) (by rw [htwo]; omega) (by rw [htwo]; omega) ?_]
    intro i hi
    have hnext := hleaves (2 ^ j + i) (by omega)
    rwa [← Nat.add_assoc, ← Nat.add_assoc, ← hhalf, ← hhalf] at hnext

/-- The leaves under the last node of a complete level of odd width, appended once
more, repeat that node. -/
theorem repeatsLast_append {w : ℕ} (hodd : w % 2 = 1) (hmany : 1 < w) (hn : n = w * 2 ^ k)
    (hm : m = n + 2 ^ k) (hsame : ∀ i < n, b i = a i)
    (hagain : ∀ i < 2 ^ k, b (n + i) = a ((w - 1) * 2 ^ k + i)) : RepeatsLast h a n b m k := by
  have hpos : 0 < 2 ^ k := Nat.two_pow_pos k
  have hmw : m = (w + 1) * 2 ^ k := by rw [hm, hn]; ring
  have hwidth : ∀ x c : ℕ, x = c * 2 ^ k → width x k = c := by
    intro x c hx
    apply width_unique
    intro p
    rw [lt_width_iff, hx]
    exact Nat.mul_lt_mul_right hpos
  have hwn := hwidth n w hn
  have hwm := hwidth m (w + 1) hmw
  have hbound : ∀ p c : ℕ, p < c → (p + 1) * 2 ^ k ≤ c * 2 ^ k := by
    intro p c hp
    exact Nat.mul_le_mul_right _ hp
  refine ⟨by rw [hwn]; exact hodd, by rw [hwn]; exact hmany, ?_⟩
  unfold level
  rw [hwn, hwm, List.range_succ, List.map_append, List.map_singleton]
  congr 1
  · refine List.map_congr_left fun p hp => ?_
    have hlt : p < w := List.mem_range.mp hp
    refine node_congr (by rw [hmw]; exact hbound p _ (by omega)) (by rw [hn]; exact hbound p _ hlt) ?_
    intro i hi
    have hle := hbound p w hlt
    rw [Nat.add_mul, Nat.one_mul] at hle
    exact hsame _ (by omega)
  · refine congrArg (fun x => [x]) ?_
    have hlast : w - 1 + 1 = w := by omega
    refine node_congr (by rw [hmw]) (by rw [hlast, hn]) ?_
    intro i hi
    rw [← hn]
    exact hagain i hi

theorem RepeatsLast.count_ne (hrep : RepeatsLast h a n b m k) : n ≠ m := by
  rintro rfl
  have hwidth := hrep.width_eq
  omega

end Repeated

section Branches

variable (h : α → α → α) (leaf : ℕ → α) (n : ℕ)

/-- The position beside `p`: its own again where there is none. -/
def sibling (k p : ℕ) : ℕ := if p % 2 = 1 then p - 1 else rightChild n k (p / 2)

/-- The nodes beside the way up from position `p` of level `k`, over `j` levels. -/
def branch : ℕ → ℕ → ℕ → List α
  | 0, _, _ => []
  | j + 1, k, p => node h leaf n k (sibling n k p) :: branch j (k + 1) (p / 2)

/-- The way up from a hash at position `p` along a branch. -/
def climb : α → List α → ℕ → α
  | x, [], _ => x
  | x, y :: branch, p => climb (if p % 2 = 1 then h y x else h x y) branch (p / 2)

variable {h leaf n}

theorem node_parent {k p : ℕ} (hp : p < width n k) :
    (if p % 2 = 1 then h (node h leaf n k (sibling n k p)) (node h leaf n k p)
      else h (node h leaf n k p) (node h leaf n k (sibling n k p))) =
        node h leaf n (k + 1) (p / 2) := by
  have hparent : node h leaf n (k + 1) (p / 2) =
      h (node h leaf n k (2 * (p / 2))) (node h leaf n k (rightChild n k (p / 2))) := rfl
  rw [hparent, sibling]
  by_cases hodd : p % 2 = 1
  · have hleft : 2 * (p / 2) = p - 1 := by omega
    have hright : rightChild n k (p / 2) = p := by
      unfold rightChild
      rw [if_pos (by omega)]
      omega
    rw [if_pos hodd, if_pos hodd, hleft, hright]
  · have hleft : 2 * (p / 2) = p := by omega
    rw [if_neg hodd, if_neg hodd, hleft]

/-- The branch of a node leads to the nodes above it. -/
theorem climb_branch (j : ℕ) {k p : ℕ} (hp : p < width n k) :
    climb h (node h leaf n k p) (branch h leaf n j k p) p = node h leaf n (k + j) (p / 2 ^ j) := by
  induction j generalizing k p with
  | zero => rw [branch, climb, pow_zero, Nat.div_one, Nat.add_zero]
  | succ j ih =>
    have hnext : p / 2 < width n (k + 1) := by
      rw [width_succ]
      omega
    rw [branch, climb, node_parent hp, ih hnext, Nat.div_div_eq_div_mul, ← Nat.pow_succ',
      Nat.add_right_comm, Nat.add_assoc]

theorem climb_root {p : ℕ} (hp : p < n) :
    climb h (leaf p) (branch h leaf n (height n) 0 p) p = root h leaf n := by
  have hclimb := @climb_branch _ h leaf n (height n) 0 p (by rwa [width_zero])
  have htop : p / 2 ^ height n = 0 := by
    refine Nat.div_eq_of_lt (lt_of_lt_of_le hp ?_)
    exact (width_le_one_iff n (height n)).mp ((height_le_iff n _).mp (le_refl _))
  rwa [htop, Nat.zero_add] at hclimb

theorem branch_length (h : α → α → α) (leaf : ℕ → α) (n j k p : ℕ) :
    (branch h leaf n j k p).length = j := by
  induction j generalizing k p with
  | zero => rfl
  | succ j ih => rw [branch, List.length_cons, ih]

theorem height_two_pow (k : ℕ) : height (2 ^ k) = k := Nat.clog_pow 2 k (by omega)

end Branches

end UmbrellaLtc.HashTree
