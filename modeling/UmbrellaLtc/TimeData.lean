import UmbrellaLtc.MachineInt
import UmbrellaLtc.NetAddr
import UmbrellaLtc.OrderStatistic
import UmbrellaLtc.Runs

/-!
AddTimeData and CMedianFilter of util. The offset is the median of the samples that the
filter keeps, as long as the filter is not full: from then on it holds 200 samples, an
even number, and the offset is not looked at again.
-/

namespace UmbrellaLtc.TimeData

open MachineInt NetAddr OrderStatistic Runs

/-- The type `int64`. An operation on it is undefined where its result is no value of the type. -/
abbrev int64 := Signed 63

instance : DecidableLE int64 := fun a b => Int.decLe a.1 b.1

/-- CMedianFilter<int64>. -/
structure CMedianFilter where
  vValues : List int64
  vSorted : List int64
  nSize : ℕ
  sorted : vSorted = vValues.insertionSort (· ≤ ·)
  nonempty : vValues ≠ []

namespace CMedianFilter

def new (size : ℕ) (initial_value : int64) : CMedianFilter :=
  ⟨[initial_value], [initial_value], size, rfl, List.cons_ne_nil _ _⟩

/-- vValues after an input. -/
def pushed (f : CMedianFilter) (value : int64) : List int64 :=
  (if f.vValues.length = f.nSize then f.vValues.drop 1 else f.vValues) ++ [value]

def input (f : CMedianFilter) (value : int64) : CMedianFilter :=
  ⟨f.pushed value, (f.pushed value).insertionSort (· ≤ ·), f.nSize, rfl, by simp [pushed]⟩

def median (f : CMedianFilter) : Option int64 :=
  let size := f.vSorted.length
  if size % 2 = 1 then f.vSorted[size / 2]?
  else do
    let lower ← f.vSorted[size / 2 - 1]?
    let upper ← f.vSorted[size / 2]?
    let sum ← machine 63 (lower.1 + upper.1)
    machine 63 (sum.1.tdiv 2)

def size (f : CMedianFilter) : ℕ := f.vValues.length

end CMedianFilter

def abs64 (n : int64) : Option int64 := if 0 ≤ n.1 then some n else machine 63 (-n.1)

/-- The variables that AddTimeData keeps. -/
structure TimeState where
  nTimeOffset : int64
  setKnown : Finset CNetAddr
  vTimeOffsets : CMedianFilter
  fDone : Bool
  strMiscWarning : String

def TimeState.init : TimeState := ⟨0, ∅, .new 200 0, false, ""⟩

def strMessage : String :=
  "Warning: Please check that your computer's date and time are correct! " ++
    "If your clock is wrong Umbrella-LTC will not work properly."

/-- An offset that is not zero, but within five minutes. -/
def isMatch (nOffset : int64) : Option Bool :=
  if nOffset.1 = 0 then some false else (abs64 nOffset).map fun n => decide (n.1 < 5 * 60)

/-- The warning, when it has not been given and no offset matches. -/
def warn (s : TimeState) : Option TimeState :=
  if s.fDone then some s
  else do
    let fMatch ← s.vTimeOffsets.vSorted.foldlM
      (fun fMatch nOffset => (isMatch nOffset).map (fMatch || ·)) false
    return if fMatch then s else { s with fDone := true, strMiscWarning := strMessage }

/-- The part of AddTimeData that adjusts the offset. -/
def adjust (s : TimeState) : Option TimeState := do
  let nMedian ← s.vTimeOffsets.median
  let n ← abs64 nMedian
  if n.1 < 35 * 60 then return { s with nTimeOffset := nMedian }
  else warn { s with nTimeOffset := 0 }

/-- A call of AddTimeData, at a time `now`. -/
structure Call where
  ip : CNetAddr
  nTime : int64
  now : int64

def Call.offset (c : Call) : ℤ := c.nTime.1 - c.now.1

/-- AddTimeData. -/
def addTimeData (c : Call) (s : TimeState) : Option TimeState := do
  let nOffsetSample ← machine 63 c.offset
  if c.ip ∈ s.setKnown then return s
  else
    let s := { s with
      setKnown := insert c.ip s.setKnown
      vTimeOffsets := s.vTimeOffsets.input nOffsetSample }
    if 5 ≤ s.vTimeOffsets.size ∧ s.vTimeOffsets.size % 2 = 1 then adjust s else return s

/-- A call in the state that the calls before it have left, if they are all defined. -/
def step (s : Option TimeState) (c : Call) : Option TimeState := s.bind (addTimeData c)

section Medians

/-- The median of a list, as CMedianFilter takes it. -/
def medianOf (l : List ℤ) : ℤ :=
  if l.length % 2 = 1 then ranked l (l.length / 2) 0
  else (ranked l (l.length / 2 - 1) 0 + ranked l (l.length / 2) 0).tdiv 2

/-- Zero instead of an offset of 35 minutes or more. -/
def clamp (nMedian : ℤ) : ℤ := if |nMedian| < 35 * 60 then nMedian else 0

theorem abs_clamp (nMedian : ℤ) : |clamp nMedian| < 35 * 60 := by
  unfold clamp
  split_ifs with h
  · exact h
  · decide

def CMedianFilter.values (f : CMedianFilter) : List ℤ := f.vValues.map Subtype.val

variable {f : CMedianFilter}

theorem CMedianFilter.length_values (f : CMedianFilter) : f.values.length = f.size :=
  List.length_map _

theorem CMedianFilter.map_vSorted (f : CMedianFilter) :
    f.vSorted.map Subtype.val = f.values.insertionSort (· ≤ ·) := by
  rw [f.sorted]
  exact List.map_insertionSort (· ≤ ·) (· ≤ ·) Subtype.val f.vValues fun _ _ _ _ => Iff.rfl

theorem CMedianFilter.length_vSorted (f : CMedianFilter) : f.vSorted.length = f.size := by
  rw [f.sorted, List.length_insertionSort]
  rfl

theorem CMedianFilter.median_odd (hodd : f.size % 2 = 1) :
    ∃ m : int64, f.median = some m ∧ m.1 = medianOf f.values := by
  have hlt : f.size / 2 < f.vSorted.length := by
    rw [f.length_vSorted]
    omega
  refine ⟨f.vSorted[f.size / 2], ?_, ?_⟩
  · unfold median
    dsimp only
    rw [f.length_vSorted, if_pos hodd]
    exact List.getElem?_eq_getElem hlt
  · have hlen : f.size / 2 < (f.values.insertionSort (· ≤ ·)).length := by
      rw [List.length_insertionSort, f.length_values]
      omega
    unfold medianOf ranked
    rw [f.length_values, if_pos hodd, List.getD_eq_getElem _ _ hlen]
    simp only [← f.map_vSorted, List.getElem_map]

theorem abs64_eq {n : int64} (hn : n.1 ≠ -2 ^ 63) :
    ∃ m : int64, abs64 n = some m ∧ m.1 = |n.1| := by
  unfold abs64
  obtain ⟨hlow, hhigh⟩ := n.2
  split_ifs with hpos
  · exact ⟨n, rfl, (abs_of_nonneg hpos).symm⟩
  · have hrange : InRange 63 (-n.1) := ⟨by omega, by omega⟩
    exact ⟨⟨-n.1, hrange⟩, machine_eq hrange, (abs_of_neg (not_le.mp hpos)).symm⟩

end Medians

section Samples

/-- The last samples, as many as the filter has room for. -/
def kept (samples : List ℤ) : List ℤ := samples.drop (samples.length - 200)

theorem length_kept (samples : List ℤ) : (kept samples).length = min samples.length 200 := by
  unfold kept
  rw [List.length_drop]
  omega

theorem kept_append (samples : List ℤ) (x : ℤ) :
    kept (samples ++ [x]) =
      (if (kept samples).length = 200 then (kept samples).drop 1 else kept samples) ++ [x] := by
  have hlen := length_kept samples
  unfold kept at hlen ⊢
  rw [List.length_append, List.length_singleton]
  split_ifs with hfull
  · have hsum : samples.length + 1 - 200 = samples.length - 200 + 1 := by omega
    rw [hsum, List.drop_drop, List.drop_append_of_le_length (by omega)]
  · have hzero : samples.length + 1 - 200 = 0 := by omega
    have hzero' : samples.length - 200 = 0 := by omega
    rw [hzero, hzero', List.drop_zero, List.drop_zero]

/-- The samples that a node has after some calls: the first value of the filter, and the offset
of each call. -/
def samples (calls : List Call) : List ℤ := 0 :: calls.map Call.offset

theorem length_samples (calls : List Call) : (samples calls).length = calls.length + 1 := by
  unfold samples
  rw [List.length_cons, List.length_map]

/-- What AddTimeData promises after the samples that it has got. -/
structure OffsetRight (samples : List ℤ) (s : TimeState) : Prop where
  near : |s.nTimeOffset.1| < 35 * 60
  median : samples.length % 2 = 1 → 5 ≤ samples.length →
    s.nTimeOffset.1 = clamp (medianOf (kept samples))

/-- What the node holds after some calls from distinct peers. -/
structure Received (calls : List Call) (s : TimeState) : Prop where
  values : s.vTimeOffsets.values = kept (samples calls)
  nSize : s.vTimeOffsets.nSize = 200
  setKnown : s.setKnown = (calls.map Call.ip).toFinset
  right : OffsetRight (samples calls) s

theorem received_init : Received [] .init where
  values := rfl
  nSize := rfl
  setKnown := rfl
  right := ⟨by decide, fun _ h => absurd h (by decide)⟩

end Samples

section Meeting

/-- The values in the filter after a call. -/
def after (s : TimeState) (c : Call) : List ℤ :=
  (if s.vTimeOffsets.size = s.vTimeOffsets.nSize then s.vTimeOffsets.values.drop 1
    else s.vTimeOffsets.values) ++ [c.offset]

/-- abs64 is not applied to the least value of its type. -/
structure AbsDefined (fDone : Bool) (values : List ℤ) : Prop where
  median : medianOf values ≠ -2 ^ 63
  warning : 35 * 60 ≤ |medianOf values| → fDone = false → ∀ v ∈ values, v ≠ -2 ^ 63

/-- A call whose arithmetic does not overflow, and which does not make an odd number of samples
when the filter has been full. -/
structure Meets (s : TimeState) (c : Call) : Prop where
  offset : InRange 63 c.offset
  abs : c.ip ∉ s.setKnown → 5 ≤ (after s c).length → (after s c).length % 2 = 1 →
    AbsDefined s.fDone (after s c)
  room : c.ip ∉ s.setKnown → (s.setKnown.card + 2) % 2 = 1 → s.setKnown.card + 2 ≤ 200

instance (fDone : Bool) (values : List ℤ) : Decidable (AbsDefined fDone values) :=
  decidable_of_iff (_ ∧ _) ⟨fun h => ⟨h.1, h.2⟩, fun h => ⟨h.median, h.warning⟩⟩

instance (s : TimeState) (c : Call) : Decidable (Meets s c) :=
  decidable_of_iff (_ ∧ _ ∧ _) ⟨fun h => ⟨h.1, h.2.1, h.2.2⟩, fun h => ⟨h.offset, h.abs, h.room⟩⟩

theorem isMatch_defined {n : int64} (hn : n.1 ≠ -2 ^ 63) : ∃ b, isMatch n = some b := by
  unfold isMatch
  split_ifs
  · exact ⟨_, rfl⟩
  · obtain ⟨m, hm, -⟩ := abs64_eq hn
    rw [hm]
    exact ⟨_, rfl⟩

theorem foldlM_isMatch {l : List int64} (hl : ∀ n ∈ l, n.1 ≠ -2 ^ 63) (b : Bool) :
    ∃ b', l.foldlM (fun fMatch nOffset => (isMatch nOffset).map (fMatch || ·)) b = some b' := by
  induction l generalizing b with
  | nil => exact ⟨b, rfl⟩
  | cons n l ih =>
    obtain ⟨m, hm⟩ := isMatch_defined (hl n List.mem_cons_self)
    rw [List.foldlM_cons, hm]
    exact ih (fun n hn => hl n (List.mem_cons_of_mem _ hn)) _

/-- A state in which only the warning may be another. -/
structure OffsetOf (s s' : TimeState) (nTimeOffset : ℤ) : Prop where
  nTimeOffset : s'.nTimeOffset.1 = nTimeOffset
  setKnown : s'.setKnown = s.setKnown
  vTimeOffsets : s'.vTimeOffsets = s.vTimeOffsets

theorem warn_defined {s : TimeState}
    (h : s.fDone = false → ∀ v ∈ s.vTimeOffsets.values, v ≠ -2 ^ 63) :
    ∃ s', warn s = some s' ∧ OffsetOf s s' s.nTimeOffset.1 := by
  unfold warn
  cases hdone : s.fDone with
  | true => exact ⟨s, rfl, rfl, rfl, rfl⟩
  | false =>
    have hall : ∀ n ∈ s.vTimeOffsets.vSorted, n.1 ≠ -2 ^ 63 := by
      intro n hn
      rw [s.vTimeOffsets.sorted, List.mem_insertionSort] at hn
      exact h hdone n.1 (List.mem_map_of_mem hn)
    obtain ⟨b, hb⟩ := foldlM_isMatch hall false
    rw [if_neg (by simp), hb]
    cases b with
    | true => exact ⟨s, rfl, rfl, rfl, rfl⟩
    | false => exact ⟨_, rfl, rfl, rfl, rfl⟩

/-- With an odd number of values the offset becomes their median, or zero. -/
theorem adjust_defined {s : TimeState} (hodd : s.vTimeOffsets.size % 2 = 1)
    (habs : AbsDefined s.fDone s.vTimeOffsets.values) :
    ∃ s', adjust s = some s' ∧ OffsetOf s s' (clamp (medianOf s.vTimeOffsets.values)) := by
  obtain ⟨m, hm, hmedian⟩ := CMedianFilter.median_odd hodd
  obtain ⟨a, ha, habsm⟩ := abs64_eq (n := m) (by rw [hmedian]; exact habs.median)
  unfold adjust
  rw [hm, Option.bind_eq_bind, Option.bind_some, ha, Option.bind_some, habsm, hmedian, clamp]
  split_ifs with hnear
  · exact ⟨_, rfl, hmedian, rfl, rfl⟩
  · obtain ⟨s', hs', hoffset⟩ := warn_defined (s := { s with nTimeOffset := 0 }) fun hdone =>
      habs.warning (not_lt.mp hnear) hdone
    exact ⟨s', hs', hoffset.nTimeOffset, hoffset.setKnown, hoffset.vTimeOffsets⟩

theorem values_input (s : TimeState) (c : Call) (hoffset : InRange 63 c.offset) :
    (s.vTimeOffsets.input ⟨c.offset, hoffset⟩).values = after s c := by
  show (s.vTimeOffsets.pushed _).map Subtype.val = _
  unfold CMedianFilter.pushed after
  rw [List.map_append, apply_ite (List.map Subtype.val), List.map_drop]
  rfl

theorem samples_append (calls : List Call) (c : Call) :
    samples (calls ++ [c]) = samples calls ++ [c.offset] := by
  unfold samples
  rw [List.map_append, List.cons_append]
  rfl

theorem Received.after_eq {calls : List Call} {s : TimeState} (hs : Received calls s) (c : Call) :
    after s c = kept (samples (calls ++ [c])) := by
  unfold after
  rw [samples_append, kept_append, ← s.vTimeOffsets.length_values, hs.values, hs.nSize]

/-- Where there is room, the filter holds an odd number of values when an odd number of samples
has been got, and then all of them. -/
theorem Received.odd_iff {calls : List Call} {s : TimeState} {c : Call} (hs : Received calls s)
    (hnew : c.ip ∉ s.setKnown) (hnodup : (calls.map Call.ip).Nodup) (hc : Meets s c) :
    (5 ≤ (after s c).length ∧ (after s c).length % 2 = 1) ↔
      (5 ≤ (samples (calls ++ [c])).length ∧ (samples (calls ++ [c])).length % 2 = 1) := by
  have hcard : s.setKnown.card = calls.length := by
    rw [hs.setKnown, List.toFinset_card_of_nodup hnodup, List.length_map]
  have hlen : (samples (calls ++ [c])).length = calls.length + 2 := by
    rw [length_samples, List.length_append]
    rfl
  have hroom := hc.room hnew
  rw [hcard] at hroom
  rw [hs.after_eq, length_kept, hlen]
  omega

/-- A call that meets the condition, from a peer that has not been heard. -/
theorem addTimeData_received {calls : List Call} {s : TimeState} {c : Call}
    (hs : Received calls s) (hnew : c.ip ∉ calls.map Call.ip) (hnodup : (calls.map Call.ip).Nodup)
    (hc : Meets s c) : ∃ s', addTimeData c s = some s' ∧ Received (calls ++ [c]) s' := by
  have hnot : c.ip ∉ s.setKnown := by
    rw [hs.setKnown, List.mem_toFinset]
    exact hnew
  have hvalues := values_input s c hc.offset
  have hsize : (s.vTimeOffsets.input ⟨c.offset, hc.offset⟩).size = (after s c).length := by
    rw [← CMedianFilter.length_values, hvalues]
  have hset : insert c.ip s.setKnown = ((calls ++ [c]).map Call.ip).toFinset := by
    rw [hs.setKnown, List.map_append, List.toFinset_append, Finset.union_comm]
    rfl
  unfold addTimeData
  rw [machine_eq hc.offset, Option.bind_eq_bind, Option.bind_some, if_neg hnot]
  dsimp only
  rw [hsize]
  split_ifs with hodd
  · have habs := hc.abs hnot hodd.1 hodd.2
    obtain ⟨s', hs', hoffset⟩ := adjust_defined
      (s := { s with
        setKnown := insert c.ip s.setKnown
        vTimeOffsets := s.vTimeOffsets.input ⟨c.offset, hc.offset⟩ })
      (by rw [hsize]; exact hodd.2) (by rw [hvalues]; exact habs)
    have hclamp : s'.nTimeOffset.1 = clamp (medianOf (kept (samples (calls ++ [c])))) := by
      rw [hoffset.nTimeOffset, hvalues, hs.after_eq]
    refine ⟨s', hs', ?_, ?_, ?_, ?_, fun _ _ => hclamp⟩
    · rw [hoffset.vTimeOffsets, hvalues, hs.after_eq]
    · rw [hoffset.vTimeOffsets]
      exact hs.nSize
    · rw [hoffset.setKnown]
      exact hset
    · rw [hclamp]
      exact abs_clamp _
  · refine ⟨_, rfl, ?_, hs.nSize, hset, hs.right.near, fun h₁ h₅ => ?_⟩
    · rw [hvalues, hs.after_eq]
    · exact absurd ((hs.odd_iff hnot hnodup hc).mpr ⟨h₅, h₁⟩) hodd

/-- By induction on the calls that are still to come. -/
theorem received_run {calls rest : List Call} {s : TimeState} (hs : Received calls s)
    (hnodup : ((calls ++ rest).map Call.ip).Nodup)
    (hmeets : EachStep step (fun s c => ∀ t ∈ s, Meets t c) (some s) rest) :
    ∃ s', run step (some s) rest = some s' ∧ Received (calls ++ rest) s' := by
  induction rest generalizing calls s with
  | nil =>
    rw [List.append_nil]
    exact ⟨s, rfl, hs⟩
  | cons c rest ih =>
    have hparts := hnodup
    rw [List.map_append, List.map_cons, List.nodup_append] at hparts
    have hnew : c.ip ∉ calls.map Call.ip := fun hmem =>
      hparts.2.2 c.ip hmem c.ip List.mem_cons_self rfl
    obtain ⟨s', hs', hreceived⟩ := addTimeData_received hs hnew hparts.1 (hmeets.1 s rfl)
    have hstep : step (some s) c = some s' := hs'
    have hrest := hmeets.2
    rw [hstep] at hrest
    rw [List.append_cons] at hnodup ⊢
    obtain ⟨t, ht, hafter⟩ := ih hreceived hnodup hrest
    refine ⟨t, ?_, hafter⟩
    show run step (step (some s) c) rest = some t
    rw [hstep]
    exact ht

/-- At every moment of a run of calls from distinct peers in which every call meets the
condition. -/
theorem time_offset (calls : List Call) (hdistinct : (calls.map Call.ip).Nodup)
    (hmeets : EachStep step (fun s c => ∀ t ∈ s, Meets t c) (some .init) calls)
    (heard : List Call) (hheard : heard <+: calls) :
    ∃ s, run step (some .init) heard = some s ∧ OffsetRight (samples heard) s := by
  obtain ⟨later, rfl⟩ := hheard
  rw [List.map_append] at hdistinct
  have hheard : ∃ s, run step (some .init) heard = some s ∧ Received ([] ++ heard) s :=
    received_run received_init (List.Nodup.of_append_left hdistinct) hmeets.left
  obtain ⟨s, hs, hreceived⟩ := hheard
  exact ⟨s, hs, hreceived.right⟩

theorem ranked_mem {l : List ℤ} {k : ℕ} (hk : k < l.length) : ranked l k 0 ∈ l := by
  have hlen : k < (l.insertionSort (· ≤ ·)).length := by
    rw [List.length_insertionSort]
    exact hk
  unfold ranked
  rw [List.getD_eq_getElem _ _ hlen, ← List.mem_insertionSort (· ≤ ·)]
  exact List.getElem_mem hlen

theorem absDefined_of_all {values : List ℤ} (fDone : Bool) (hodd : values.length % 2 = 1)
    (h : ∀ v ∈ values, v ≠ -2 ^ 63) : AbsDefined fDone values := by
  refine ⟨?_, fun _ _ => h⟩
  unfold medianOf
  rw [if_pos hodd]
  exact h _ (ranked_mem (by omega))

/-- The first peers meet the condition, where the difference of the clocks is a value of its
type and not the least one. -/
theorem eachStep_meets {calls rest : List Call} {s : TimeState} (hs : Received calls s)
    (hnodup : ((calls ++ rest).map Call.ip).Nodup) (hlen : (calls ++ rest).length ≤ 199)
    (hoffset : ∀ c ∈ calls ++ rest, -2 ^ 63 < c.offset ∧ c.offset < 2 ^ 63) :
    EachStep step (fun s c => ∀ t ∈ s, Meets t c) (some s) rest := by
  induction rest generalizing calls s with
  | nil => trivial
  | cons c rest ih =>
    rw [List.append_cons] at hnodup hlen hoffset
    have hhead : ((calls ++ [c]).map Call.ip).Nodup := by
      rw [List.map_append] at hnodup
      exact List.Nodup.of_append_left hnodup
    have hknown : s.setKnown.card ≤ calls.length := by
      rw [hs.setKnown]
      exact (List.toFinset_card_le _).trans (List.length_map _).le
    have hrange : ∀ d ∈ calls ++ [c], -2 ^ 63 < d.offset ∧ d.offset < 2 ^ 63 :=
      fun d hd => hoffset d (List.mem_append_left _ hd)
    have hvalues : ∀ v ∈ after s c, v ≠ -2 ^ 63 := by
      intro v hv
      rw [hs.after_eq] at hv
      rcases List.mem_cons.mp (List.mem_of_mem_drop hv) with hzero | hmem
      · rw [hzero]
        decide
      · obtain ⟨d, hd, rfl⟩ := List.mem_map.mp hmem
        exact ne_of_gt (hrange d hd).1
    rw [List.length_append, List.length_append, List.length_singleton] at hlen
    have hc : Meets s c := by
      have hown := hrange c (List.mem_append_right _ (List.mem_singleton_self c))
      exact ⟨⟨hown.1.le, hown.2⟩, fun _ _ hodd => absDefined_of_all _ hodd hvalues,
        fun _ _ => by omega⟩
    have hparts := hhead
    rw [List.map_append, List.nodup_append] at hparts
    have hnew : c.ip ∉ calls.map Call.ip := fun hmem =>
      hparts.2.2 c.ip hmem c.ip List.mem_cons_self rfl
    obtain ⟨s', hs', hreceived⟩ := addTimeData_received hs hnew hparts.1 hc
    refine ⟨fun t ht => ?_, ?_⟩
    · obtain rfl := Option.some.inj ht
      exact hc
    · have hstep : step (some s) c = some s' := hs'
      rw [hstep]
      refine ih hreceived hnodup ?_ hoffset
      rw [List.length_append, List.length_append, List.length_singleton]
      exact hlen

theorem received_of_length_le {calls : List Call} (hnodup : (calls.map Call.ip).Nodup)
    (hlen : calls.length ≤ 199) (hoffset : ∀ c ∈ calls, -2 ^ 63 < c.offset ∧ c.offset < 2 ^ 63) :
    ∃ s, run step (some .init) calls = some s ∧ Received calls s :=
  received_run received_init hnodup (eachStep_meets received_init hnodup hlen hoffset)

/-- A call that leaves an even number of values does not look at the offset. -/
theorem offset_kept {s s' : TimeState} {c : Call} (heven : (after s c).length % 2 = 0)
    (h : addTimeData c s = some s') :
    s'.nTimeOffset = s.nTimeOffset ∧
      (s' = s ∨ s'.vTimeOffsets.size = (after s c).length ∧
        s'.vTimeOffsets.nSize = s.vTimeOffsets.nSize) := by
  obtain ⟨sample, hsample, h⟩ := Option.bind_eq_some_iff.mp h
  have hoffset : InRange 63 c.offset := by
    by_contra hnot
    rw [machine_none hnot] at hsample
    cases hsample
  rw [machine_eq hoffset] at hsample
  obtain rfl := Option.some.inj hsample
  have hsize : (s.vTimeOffsets.input ⟨c.offset, hoffset⟩).size = (after s c).length := by
    rw [← CMedianFilter.length_values, values_input]
  dsimp only at h
  rw [hsize] at h
  split_ifs at h with hknown hodd
  · obtain rfl := Option.some.inj h
    exact ⟨rfl, Or.inl rfl⟩
  · have habs := hodd.2
    omega
  · obtain rfl := Option.some.inj h
    exact ⟨rfl, Or.inr ⟨hsize, rfl⟩⟩

/-- A filter with room for an even number of values, once it is full. -/
structure Full (s : TimeState) : Prop where
  size : s.vTimeOffsets.size = s.vTimeOffsets.nSize
  even : s.vTimeOffsets.nSize % 2 = 0

theorem Full.length_after {s : TimeState} (hs : Full s) (c : Call) :
    (after s c).length = s.vTimeOffsets.nSize := by
  have hpos : 0 < s.vTimeOffsets.size := List.length_pos_iff.mpr s.vTimeOffsets.nonempty
  unfold after
  rw [if_pos hs.size, List.length_append, List.length_drop, s.vTimeOffsets.length_values,
    List.length_singleton]
  have hsize := hs.size
  omega

/-- From then on no call changes the offset. -/
theorem full_run {s s' : TimeState} (hs : Full s) (calls : List Call)
    (h : run step (some s) calls = some s') : s'.nTimeOffset = s.nTimeOffset ∧ Full s' := by
  induction calls generalizing s with
  | nil =>
    obtain rfl := Option.some.inj h
    exact ⟨rfl, hs⟩
  | cons c rest ih =>
    change run step (addTimeData c s) rest = some s' at h
    cases hc : addTimeData c s with
    | none =>
      rw [hc] at h
      have hnone : ∀ l : List Call, run step none l = none := by
        intro l
        induction l with
        | nil => rfl
        | cons c l ih => exact ih
      rw [hnone] at h
      cases h
    | some t =>
      rw [hc] at h
      obtain ⟨hoffset, hsame⟩ := offset_kept (by rw [hs.length_after c]; exact hs.even) hc
      have ht : Full t := by
        rcases hsame with rfl | ⟨hsize, hnSize⟩
        · exact hs
        · rw [hs.length_after c] at hsize
          exact ⟨hsize.trans hnSize.symm, by rw [hnSize]; exact hs.even⟩
      rw [← hoffset]
      exact ih ht h

end Meeting

section Peers

/-- A call from the peer with the number `i`, whose clock is ahead by `offset` seconds. -/
def peer (i : ℕ) (offset : BitVec 32) : Call where
  ip := ⟨BitVec.ofNat 128 i⟩
  nTime := ⟨1405801325 + offset.toNat, by
    have hlt := offset.isLt
    exact ⟨by omega, by omega⟩⟩
  now := ⟨1405801325, by decide⟩

def fourPeers : List Call := [peer 1 60, peer 2 30, peer 3 90, peer 4 50]

theorem time_offset_four :
    ∃ s, run step (some .init) fourPeers = some s ∧ OffsetRight (samples fourPeers) s :=
  time_offset fourPeers (by decide)
    ⟨by decide, by decide, by decide, by decide, trivial⟩
    fourPeers (List.prefix_refl _)

/-- Peers with the right time, and as many with a clock that is a minute ahead. -/
def divided : List Call := (List.range 198).map fun i => peer i (if i < 99 then 0 else 60)

theorem length_divided : divided.length = 198 := by
  rw [divided, List.length_map, List.length_range]

def twoHundred : List Call := divided ++ [peer 198 60] ++ [peer 199 60]

theorem length_twoHundred : twoHundred.length = 200 := by
  rw [twoHundred, List.length_append, List.length_append, length_divided]
  rfl

theorem nodup_twoHundred : (twoHundred.map Call.ip).Nodup := by
  have hips : twoHundred.map Call.ip =
      (List.range 200).map fun i => ⟨BitVec.ofNat 128 i⟩ := by
    rw [twoHundred, List.map_append, List.map_append, List.range_succ, List.range_succ,
      List.map_append, List.map_append, divided, List.map_map]
    rfl
  rw [hips]
  refine List.Nodup.map_on (fun i hi j hj heq => ?_) List.nodup_range
  have hnat := congrArg (fun a : CNetAddr => a.ip.toNat) heq
  rw [List.mem_range] at hi hj
  simp only [BitVec.toNat_ofNat] at hnat
  omega

theorem offset_peer (i : ℕ) (offset : BitVec 32) : (peer i offset).offset = offset.toNat := by
  unfold Call.offset peer
  dsimp only
  omega

theorem peer_inRange (i : ℕ) (offset : BitVec 32) :
    -2 ^ 63 < (peer i offset).offset ∧ (peer i offset).offset < 2 ^ 63 := by
  rw [offset_peer]
  omega

/-- The last call makes 201 samples, of which the filter keeps 200, and the offset is still the
median of the first 199. -/
theorem twoHundred_not_right :
    (twoHundred.map Call.ip).Nodup ∧
      ¬ ∃ s, run step (some .init) twoHundred = some s ∧ OffsetRight (samples twoHundred) s := by
  refine ⟨nodup_twoHundred, ?_⟩
  rintro ⟨t, ht, hright⟩
  have hmost : ((divided ++ [peer 198 60]).map Call.ip).Nodup := by
    have hall := nodup_twoHundred
    rw [twoHundred, List.map_append] at hall
    exact List.Nodup.of_append_left hall
  have hsome : (divided.map Call.ip).Nodup := by
    rw [List.map_append] at hmost
    exact List.Nodup.of_append_left hmost
  have hdivided : ∀ c ∈ divided, -2 ^ 63 < c.offset ∧ c.offset < 2 ^ 63 := by
    intro c hc
    obtain ⟨i, -, rfl⟩ := List.mem_map.mp hc
    exact peer_inRange i _
  have hlen : (divided ++ [peer 198 60]).length = 199 := by
    rw [List.length_append, length_divided]
    rfl
  -- the states after 198, 199 and 200 calls
  obtain ⟨s, hs, hreceived⟩ :=
    received_of_length_le hsome (by rw [length_divided]; decide) hdivided
  obtain ⟨s₁, hs₁, hreceived₁⟩ := received_of_length_le hmost hlen.le fun c hc => by
    rcases List.mem_append.mp hc with hc | hc
    · exact hdivided c hc
    · rw [List.mem_singleton.mp hc]
      exact peer_inRange _ _
  have hnext : addTimeData (peer 198 60) s = some s₁ := by
    rw [run_concat, hs] at hs₁
    exact hs₁
  have hlast : addTimeData (peer 199 60) s₁ = some t := by
    rw [twoHundred, run_concat, hs₁] at ht
    exact ht
  have heven : (after s (peer 198 60)).length % 2 = 0 := by
    rw [hreceived.after_eq, length_kept, length_samples, hlen]
    rfl
  have heven₁ : (after s₁ (peer 199 60)).length % 2 = 0 := by
    rw [hreceived₁.after_eq, length_kept, length_samples, List.length_append, hlen]
    rfl
  have hsame : t.nTimeOffset = s.nTimeOffset :=
    (offset_kept heven₁ hlast).1.trans (offset_kept heven hnext).1
  have hbefore := hreceived.right.median
  rw [length_samples, length_divided] at hbefore
  have hafter := hright.median
  rw [length_samples, length_twoHundred] at hafter
  have hmedians : clamp (medianOf (kept (samples divided))) ≠
      clamp (medianOf (kept (samples twoHundred))) := by
    decide +kernel
  exact hmedians (by rw [← hbefore rfl (by decide), ← hafter rfl (by decide), hsame])

end Peers

end UmbrellaLtc.TimeData
