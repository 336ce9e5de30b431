import GitSlice.Diff.Lines

/-! # The output of a check
`cappedBuffer` of `internal/checkexec/exec.go` keeps the first `logHeadBytes` of what a check prints
and, in a ring, the latest output after them. `string_writes` says what it shows of the whole
output, and how much memory it takes, whatever the sizes of the writes. -/

namespace GitSlice.CappedBuffer

open List

/-- How much of the output is kept. -/
def maxLogBytes : Nat := 256 * 1024

/-- How much of its start. -/
def logHeadBytes : Nat := 32 * 1024

/-- `len(b.tail)`, once it is made. -/
def tailBytes : Nat := maxLogBytes - logHeadBytes

/-- How a `bytes.Buffer` grows: the capacity it gets when it needs more than it has. -/
structure Growth where
  grow : Nat → Nat → Nat
  le : ∀ {capacity need}, capacity < need → grow capacity need ≤ 4 * need + 64

/-- The growth of `bytes.Buffer`: `smallBufferSize` for a small first write, else what is needed or
twice the capacity. -/
def bufferGrowth : Growth where
  grow capacity need := if capacity = 0 ∧ need ≤ 64 then 64 else max need (2 * capacity)
  le := by
    intro capacity need hlt
    split_ifs <;> omega

/-- `cappedBuffer`. Counts of bytes do not overflow. -/
structure Buffer where
  head : Bytes := []
  /-- The capacity of `head`. -/
  capacity : Nat := 0
  /-- The ring, empty before it is made. -/
  tail : Bytes := []
  /-- The write position of the ring. -/
  next : Nat := 0
  /-- How many bytes were ever written past `head`. -/
  tailWritten : Nat := 0

section Ring

variable {α : Type} (ring : List α) (next : Nat) (p : List α)

/-- `copy(ring[next:], p)`. -/
def copyTo : List α := ring.take next ++ p.take (ring.length - next) ++ ring.drop (next + p.length)

/-- The loop of `Write`. Its position is in the ring, so it ends with all of `p` copied. -/
def fill (ring : List α) (next : Nat) (p : List α) : List α × Nat :=
  if next < ring.length ∧ 0 < p.length then
    let c := min (ring.length - next) p.length
    fill (copyTo ring next p) ((next + c) % ring.length) (p.drop c)
  else (ring, next)
termination_by p.length
decreasing_by
  rw [length_drop]
  omega

/-- The bytes of the ring, the oldest first. -/
def contents : List α := ring.drop next ++ ring.take next

end Ring

namespace Buffer

variable (g : Growth) (b : Buffer)

/-- `Write`: the head first, the rest into the ring. -/
def write (p : Bytes) : Buffer :=
  let room := logHeadBytes - b.head.length
  let head := b.head ++ p.take room
  let capacity := if head.length ≤ b.capacity then b.capacity else g.grow b.capacity head.length
  let p := p.drop room
  if p = [] then { b with head, capacity }
  else
    let tail := if b.tail = [] then replicate tailBytes 0 else b.tail
    let filled := fill tail b.next (p.drop (p.length - tail.length))
    { head, capacity, tail := filled.1, next := filled.2, tailWritten := b.tailWritten + p.length }

/-- The line that stands for the bytes left out. -/
def note (omitted : Nat) : Bytes :=
  utf8 ("\n[check log truncated: " ++ toString omitted ++ " bytes omitted]\n")

/-- `String`. -/
def string : Bytes :=
  if b.tailWritten = 0 then b.head
  else if b.tailWritten ≤ b.tail.length then b.head ++ b.tail.take b.tailWritten
  else b.head ++ note (b.tailWritten - b.tail.length) ++ b.tail.drop b.next ++ b.tail.take b.next

end Buffer

/-! ## The ring -/

section Ring

variable {α : Type} {ring p : List α} {next : Nat}

theorem length_copyTo (hnext : next < ring.length) : (copyTo ring next p).length = ring.length := by
  simp only [copyTo, length_append, length_take, length_drop]
  omega

/-- A copy takes the place of the oldest bytes. -/
theorem contents_copyTo (hnext : next < ring.length) :
    contents (copyTo ring next p) ((next + min (ring.length - next) p.length) % ring.length) =
      (contents ring next ++ p.take (ring.length - next)).drop (min (ring.length - next) p.length) := by
  have htake : (ring.take next).length = next := by
    rw [length_take]
    omega
  by_cases hroom : next + p.length < ring.length
  · have hfront : (ring.take next ++ p).length = next + p.length := by rw [length_append, htake]
    rw [contents, contents, copyTo, take_of_length_le (by omega : p.length ≤ ring.length - next),
      Nat.min_eq_right (by omega), Nat.mod_eq_of_lt hroom, drop_left' hfront, take_left' hfront,
      append_assoc, drop_append_of_le_length (by rw [length_drop]; omega), drop_drop]
  · have hall : next + min (ring.length - next) p.length = ring.length := by omega
    rw [hall, Nat.mod_self, contents, contents, copyTo, drop_zero, take_zero, append_nil,
      drop_eq_nil_of_le (by omega : ring.length ≤ next + p.length), append_nil, append_assoc,
      drop_left' (by rw [length_drop]; omega)]

theorem fill_spec (hnext : next < ring.length) :
    (fill ring next p).1.length = ring.length ∧
      (fill ring next p).2 = (next + p.length) % ring.length ∧
      contents (fill ring next p).1 (fill ring next p).2 =
        (contents ring next ++ p).drop p.length := by
  fun_induction fill ring next p with
  | case1 ring next p h c ih =>
    have hlen := length_copyTo (p := p) h.1
    have hmod : (next + c) % ring.length < ring.length := Nat.mod_lt _ (by omega)
    rw [hlen] at ih
    obtain ⟨ihlen, ihnext, ihcontents⟩ := ih hmod
    have hc : c ≤ p.length := Nat.min_le_right _ _
    refine ⟨ihlen, ?_, ?_⟩
    · rw [ihnext, length_drop, Nat.mod_add_mod]
      congr 1
      omega
    · have hsplit : p.take (ring.length - next) ++ p.drop c = p := by
        rcases Nat.le_total (ring.length - next) p.length with hle | hle
        · rw [show c = ring.length - next from Nat.min_eq_left hle, take_append_drop]
        · rw [take_of_length_le hle, show c = p.length from Nat.min_eq_right hle, drop_length,
            append_nil]
      rw [ihcontents, contents_copyTo h.1, ← drop_append_of_le_length, append_assoc, hsplit,
        drop_drop, length_drop]
      · congr 1
        omega
      · simp only [length_append, length_take, length_drop, contents]
        omega
  | case2 ring next p h =>
    have hp : p = [] := eq_nil_of_length_eq_zero (by omega)
    subst hp
    refine ⟨rfl, ?_, by simp⟩
    rw [length_nil, Nat.add_zero, Nat.mod_eq_of_lt hnext]

end Ring

/-! ## The buffer -/

/-- A ring that has taken the bytes `t`. -/
structure Latest (ring : Bytes) (next : Nat) (t : Bytes) : Prop where
  length : ring.length = tailBytes
  next_lt : next < tailBytes
  contents : contents ring next = (replicate tailBytes 0 ++ t).drop t.length
  early : t.length ≤ tailBytes → next = t.length % tailBytes

variable {ring t p w : Bytes} {next : Nat} {b : Buffer} {g : Growth}

theorem latest_empty : Latest (replicate tailBytes 0) 0 [] :=
  ⟨length_replicate, by decide, by simp [contents], fun _ => rfl⟩

/-- Only the last bytes of a long write are copied. -/
theorem Latest.fill (h : Latest ring next t) :
    Latest (fill ring next (p.drop (p.length - ring.length))).1
      (fill ring next (p.drop (p.length - ring.length))).2 (t ++ p) := by
  have hnext : next < ring.length := h.length ▸ h.next_lt
  obtain ⟨hlen, hpos, hcontents⟩ := fill_spec (p := p.drop (p.length - ring.length)) hnext
  rw [h.length] at hlen hpos hcontents ⊢
  have hsize : (CappedBuffer.contents ring next).length = tailBytes := by
    rw [h.contents]
    simp
  refine ⟨hlen, ?_, ?_, fun hshort => ?_⟩
  · rw [hpos]
    exact Nat.mod_lt _ (by decide)
  · have hall : (replicate tailBytes 0 ++ (t ++ p)).drop (t ++ p).length =
        (CappedBuffer.contents ring next ++ p).drop p.length := by
      rw [h.contents, length_append, ← drop_drop, ← append_assoc,
        drop_append_of_le_length (by simp : t.length ≤ (replicate tailBytes 0 ++ t).length)]
    rw [hcontents, hall]
    rcases Nat.le_total p.length tailBytes with hle | hle
    · rw [Nat.sub_eq_zero_of_le hle, drop_zero]
    · rw [drop_left' (by rw [hsize, length_drop]; omega), drop_append,
        drop_eq_nil_of_le (by omega : (CappedBuffer.contents ring next).length ≤ p.length), nil_append, hsize]
  · rw [length_append] at hshort ⊢
    rw [hpos, h.early (by omega), Nat.sub_eq_zero_of_le (by omega), drop_zero, Nat.mod_add_mod]

/-- What the buffer holds of the output so far. -/
structure Holds (b : Buffer) (w : Bytes) : Prop where
  head : b.head = w.take logHeadBytes
  capacity : b.capacity ≤ 4 * logHeadBytes + 64
  written : b.tailWritten = (w.drop logHeadBytes).length
  made : logHeadBytes < w.length → b.tail ≠ []
  latest : Latest (if b.tail = [] then replicate tailBytes 0 else b.tail) b.next (w.drop logHeadBytes)

theorem holds_empty : Holds {} [] := ⟨rfl, by decide, rfl, nofun, latest_empty⟩

section

variable (h : Latest ring next t)
include h

theorem Latest.ne_nil : ring ≠ [] := ne_nil_of_length_pos (by rw [h.length]; decide)

theorem Latest.take_eq (hshort : t.length ≤ tailBytes) : ring.take t.length = t := by
  have hcontents := h.contents
  rw [CappedBuffer.contents, drop_append_of_le_length (by simpa using hshort)] at hcontents
  have hnext := h.early hshort
  rcases Nat.lt_or_eq_of_le hshort with hlt | heq
  · rw [Nat.mod_eq_of_lt hlt] at hnext
    rw [hnext] at hcontents
    refine (append_inj' hcontents ?_).2
    rw [length_take, h.length]
    omega
  · rw [heq, Nat.mod_self] at hnext
    rw [hnext, drop_zero, take_zero, append_nil, heq, drop_eq_nil_of_le (by simp),
      nil_append] at hcontents
    rw [hcontents, take_length]

theorem Latest.contents_eq (hlong : tailBytes ≤ t.length) :
    CappedBuffer.contents ring next = t.drop (t.length - tailBytes) := by
  rw [h.contents, drop_append, drop_eq_nil_of_le (by simpa using hlong), nil_append,
    length_replicate]

end

/-- **One write.** -/
theorem Holds.write (h : Holds b w) (p : Bytes) : Holds (b.write g p) (w ++ p) := by
  have hroom : logHeadBytes - b.head.length = logHeadBytes - w.length := by
    rw [h.head, length_take]
    omega
  have hhead : b.head ++ p.take (logHeadBytes - w.length) = (w ++ p).take logHeadBytes := by
    rw [h.head, take_append]
  have hcapacity : (if ((w ++ p).take logHeadBytes).length ≤ b.capacity then b.capacity
      else g.grow b.capacity ((w ++ p).take logHeadBytes).length) ≤ 4 * logHeadBytes + 64 := by
    split_ifs with hfits
    · exact h.capacity
    · have hle := g.le (Nat.lt_of_not_le hfits)
      rw [length_take] at hle ⊢
      omega
  have hdrop : (w ++ p).drop logHeadBytes =
      w.drop logHeadBytes ++ p.drop (logHeadBytes - w.length) :=
    drop_append
  rw [Buffer.write]
  simp only [hroom, hhead]
  generalize (if ((w ++ p).take logHeadBytes).length ≤ b.capacity then b.capacity
      else g.grow b.capacity ((w ++ p).take logHeadBytes).length) = capacity at *
  by_cases hnone : p.drop (logHeadBytes - w.length) = []
  · rw [if_pos hnone]
    rw [hnone, append_nil] at hdrop
    refine ⟨rfl, hcapacity, by rw [hdrop]; exact h.written, fun hw => h.made ?_,
      by rw [hdrop]; exact h.latest⟩
    rw [drop_eq_nil_iff] at hnone
    rw [length_append] at hw
    omega
  · rw [if_neg hnone]
    have hlatest := h.latest.fill (p := p.drop (logHeadBytes - w.length))
    rw [← hdrop] at hlatest
    refine ⟨rfl, hcapacity, ?_, fun _ => hlatest.ne_nil, ?_⟩
    · rw [hdrop, length_append, h.written]
    · rw [if_neg hlatest.ne_nil]
      exact hlatest

theorem Holds.writes (h : Holds b w) (writes : List Bytes) :
    Holds (writes.foldl (Buffer.write g) b) (w ++ writes.flatten) := by
  induction writes generalizing b w with
  | nil => simpa using h
  | cons p writes ih =>
    rw [foldl_cons, flatten_cons, ← append_assoc]
    exact ih (h.write p)

/-- The buffer shows the output, or its head and its tail. -/
theorem Holds.string_eq (h : Holds b w) : b.string =
    if w.length ≤ maxLogBytes then w
    else w.take logHeadBytes ++ Buffer.note (w.length - maxLogBytes) ++
      w.drop (w.length - tailBytes) := by
  have hsizes : logHeadBytes + tailBytes = maxLogBytes := rfl
  have hwritten := h.written
  rw [length_drop] at hwritten
  rw [Buffer.string]
  by_cases hhead : w.length ≤ logHeadBytes
  · rw [if_pos (by omega), if_pos (by omega), h.head, take_of_length_le hhead]
  · have hlatest := h.latest
    rw [if_neg (h.made (by omega))] at hlatest
    rw [if_neg (by omega), hlatest.length, h.head]
    by_cases hshort : w.length ≤ maxLogBytes
    · rw [if_pos (by omega), if_pos hshort, h.written, hlatest.take_eq (by rw [length_drop]; omega),
        take_append_drop]
    · have htail := hlatest.contents_eq (by rw [length_drop]; omega)
      rw [CappedBuffer.contents, length_drop, drop_drop] at htail
      rw [if_neg (by omega), if_neg hshort, append_assoc _ (b.tail.drop b.next), htail,
        show b.tailWritten - tailBytes = w.length - maxLogBytes by omega,
        show logHeadBytes + (w.length - logHeadBytes - tailBytes) = w.length - tailBytes by omega]

theorem Holds.memory_le (h : Holds b w) : b.capacity + b.tail.length ≤ 2 * maxLogBytes := by
  have htail : b.tail.length ≤ tailBytes := by
    by_cases hmade : b.tail = []
    · rw [hmade]
      exact Nat.zero_le _
    · have hlatest := h.latest
      rw [if_neg hmade] at hlatest
      exact Nat.le_of_eq hlatest.length
  exact Nat.le_trans (Nat.add_le_add h.capacity htail) (by decide)

/-- **The log of a check.** -/
theorem string_writes (g : Growth) (writes : List Bytes) :
    (writes.foldl (Buffer.write g) {}).string =
      (if writes.flatten.length ≤ maxLogBytes then writes.flatten
      else writes.flatten.take logHeadBytes ++ Buffer.note (writes.flatten.length - maxLogBytes) ++
        writes.flatten.drop (writes.flatten.length - tailBytes)) ∧
      (writes.foldl (Buffer.write g) {}).capacity + (writes.foldl (Buffer.write g) {}).tail.length ≤
        2 * maxLogBytes := by
  have h := holds_empty.writes writes (g := g)
  exact ⟨h.string_eq, h.memory_le⟩

/-- One byte more than fits: the ring has come round, and one byte is left out. -/
theorem string_writes_wrapped :
    ([replicate maxLogBytes 1, [2]].foldl (Buffer.write bufferGrowth) {}).string =
      replicate logHeadBytes 1 ++ Buffer.note 1 ++ (replicate (tailBytes - 1) 1 ++ [2]) := by
  have hlong : [replicate maxLogBytes 1, [(2 : UInt8)]].flatten.length = maxLogBytes + 1 := by simp
  rw [(string_writes bufferGrowth _).1, if_neg (by rw [hlong]; decide), hlong]
  have hdrop : (replicate maxLogBytes 1 ++ [(2 : UInt8)]).drop (maxLogBytes + 1 - tailBytes) =
      replicate (tailBytes - 1) 1 ++ [2] := by
    rw [drop_append_of_le_length (by rw [length_replicate]; decide), drop_replicate]
    rfl
  have htake : (replicate maxLogBytes 1 ++ [(2 : UInt8)]).take logHeadBytes =
      replicate logHeadBytes 1 := by
    rw [take_append_of_le_length (by rw [length_replicate]; decide), take_replicate]
    rfl
  simp only [flatten_cons, flatten_nil, append_nil, hdrop, htake, Nat.add_sub_cancel_left]

end GitSlice.CappedBuffer
