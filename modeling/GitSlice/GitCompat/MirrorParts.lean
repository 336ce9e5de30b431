import Mathlib
import GitSlice.Diff.Lines

/-! # Mirror files in parts
`putParts` stores a file of the pack mirror in parts, several at a time. `getFile` copies them into
place and then compares the size of what it has with the size of the file; it looks at no part's own
length, and `forEachPart` reports no error for the parts it skips once its context has ended.

So a file survives with every part size and in every order of the copies, and a read of damaged
parts fails, unless what was copied happens to end where the file does: `parts_survive` says exactly
when. A first part that was cut short leaves a hole (`hole_in_file`), and so does one that was
skipped (`hole_of_skipped`). -/

namespace GitSlice.PackMirror

open List

/-! ## Parts, one after the other -/

/-- What happens in a run of `forEachPart`: the goroutine of a part comes to its turn, with a call
of the store that fails or does not, or the caller's context ends. -/
inductive PartEvent where
  | turn (i : Nat) (fails : Bool)
  | ended
deriving DecidableEq

/-- `forEachPart`, with whether it returns without an error. Parts whose turn comes after the
context has ended are skipped; the first error ends the context, and what is under way then does not
matter. -/
def forEachPart {σ : Type} (fn : Nat → σ → Option σ) : List PartEvent → σ → σ × Bool
  | [], s => (s, true)
  | .ended :: _, s => (s, true)
  | .turn i fails :: events, s =>
    match if fails then none else fn i s with
    | none => (s, false)
    | some s => forEachPart fn events s

/-- The turns before the context ended. -/
def begun : List PartEvent → List (Nat × Bool)
  | [] => []
  | .ended :: _ => []
  | .turn i fails :: events => (i, fails) :: begun events

/-- The parts that were copied, in their order. -/
def copied (events : List PartEvent) : List Nat := (begun events).map Prod.fst

/-- The part whose turn it is. -/
def PartEvent.part? : PartEvent → Option Nat
  | .turn i _ => some i
  | .ended => none

/-- Every part has one turn, and nothing else has. -/
def Complete (n : Nat) (events : List PartEvent) : Prop :=
  (events.filterMap PartEvent.part?).Perm (range n)

/-- The context ended, or a call of the store failed. -/
def Disturbed (events : List PartEvent) : Prop := .ended ∈ events ∨ ∃ i, .turn i true ∈ events

/-! ## Files -/

/-- The part size of an object that records none. -/
def legacyPartBytes : Nat := 32 * 2 ^ 20

/-- `packObject`, with what `getFile` reads of it. -/
structure PartedObject where
  size : Nat
  parts : Nat
  /-- `PartSize`: manifests from before it was recorded have none. -/
  recorded : Nat

/-- `packObject.partSize`. -/
def partSize (recorded : Nat) : Nat := if 0 < recorded then recorded else legacyPartBytes

/-- The parts of one object: `key.0`, `key.1` and so on. -/
abbrev PartStore := Nat → Option Bytes

/-- The section of a file that is its part `i`. -/
def partAt (size : Nat) (file : Bytes) (i : Nat) : Bytes := (file.drop (i * size)).take size

/-- The object `putParts` returns for a file; `recorded` is the part size it was written with, or 0
for the legacy one. -/
def partedObject (recorded : Nat) (file : Bytes) : PartedObject :=
  let size := partSize recorded
  let parts := (file.length + size - 1) / size
  ⟨file.length, if parts = 0 then 1 else parts, recorded⟩

/-- `putParts`: the store after it, and whether it returned without an error. -/
def putParts (recorded : Nat) (file : Bytes) (events : List PartEvent) (store : PartStore) :
    PartStore × Bool :=
  forEachPart (fun i store => some (Function.update store i (some (partAt (partSize recorded) file i))))
    events store

/-- A file on the disk; what was never written reads as zero. -/
structure DiskFile where
  size : Nat
  byte : Nat → UInt8

/-- A file just created. -/
def DiskFile.empty : DiskFile := ⟨0, fun _ => 0⟩

/-- A write through an `io.OffsetWriter`. -/
def DiskFile.writeAt (f : DiskFile) (offset : Nat) (data : Bytes) : DiskFile :=
  if data = [] then f
  else ⟨max f.size (offset + data.length),
    fun p => if offset ≤ p then (data[p - offset]?).getD (f.byte p) else f.byte p⟩

/-- The bytes of a file. -/
def DiskFile.content (f : DiskFile) : Bytes := (range f.size).map f.byte

/-- What `getFile` does for a part: nothing if it is not in the store. -/
def copyPart (size : Nat) (store : PartStore) (i : Nat) (f : DiskFile) : Option DiskFile :=
  (store i).map (f.writeAt (i * size))

/-- `getFile`: the file it leaves, or nothing for an error. -/
def PartedObject.getFile (o : PartedObject) (store : PartStore) (events : List PartEvent) :
    Option Bytes :=
  match forEachPart (copyPart (partSize o.recorded) store) events .empty with
  | (_, false) => none
  | (file, true) => if file.size = o.size then some file.content else none

/-! ## Runs of `forEachPart` -/

/-- Every call of the store before the end of the context is answered with a part. -/
def Answered (store : PartStore) (events : List PartEvent) : Prop :=
  ∀ x ∈ begun events, x.2 = false ∧ store x.1 ≠ none

/-- The file that is made of parts, copied in some order. -/
def copyParts (size : Nat) (part : Nat → Bytes) (order : List Nat) : DiskFile :=
  order.foldl (fun f i => f.writeAt (i * size) (part i)) .empty

variable {events : List PartEvent} {store : PartStore} {size n : Nat} {part : Nat → Bytes}
  {order : List Nat} {file : Bytes}

/-- `getFile` copies the parts up to the end of the context, or returns an error. -/
theorem forEachPart_copyPart (size : Nat) (store : PartStore) (events : List PartEvent)
    (f : DiskFile) :
    (Answered store events → forEachPart (copyPart size store) events f =
      ((copied events).foldl (fun f i => f.writeAt (i * size) ((store i).getD [])) f, true)) ∧
    (¬ Answered store events → (forEachPart (copyPart size store) events f).2 = false) := by
  induction events generalizing f with
  | nil => exact ⟨fun _ => rfl, fun h => absurd (by simp [Answered, begun]) h⟩
  | cons e events ih =>
    cases e with
    | ended => exact ⟨fun _ => rfl, fun h => absurd (by simp [Answered, begun]) h⟩
    | turn i fails =>
      cases fails with
      | true => exact ⟨fun h => by simpa using (h (i, true) (by simp [begun])).1, fun _ => rfl⟩
      | false =>
        cases hi : store i with
        | none =>
          refine ⟨fun h => absurd hi (h (i, false) (by simp [begun])).2, fun _ => ?_⟩
          simp [forEachPart, copyPart, hi]
        | some b =>
          have hrest : Answered store (.turn i false :: events) ↔ Answered store events := by
            simp [Answered, begun, hi]
          have hturn : forEachPart (copyPart size store) (.turn i false :: events) f =
              forEachPart (copyPart size store) events (f.writeAt (i * size) b) := by
            simp [forEachPart, copyPart, hi]
          rw [hrest, hturn]
          simpa [copied, begun, hi] using ih (f.writeAt (i * size) b)

/-- What `getFile` returns. -/
theorem getFile_of_answered (o : PartedObject) (h : Answered store events) :
    o.getFile store events =
    let f := copyParts (partSize o.recorded) (fun i => (store i).getD []) (copied events)
    if f.size = o.size then some f.content else none := by
  rw [PartedObject.getFile, (forEachPart_copyPart _ store events .empty).1 h]
  rfl

/-- A call of the store that is not answered makes the read fail. -/
theorem getFile_of_not_answered (o : PartedObject) (h : ¬ Answered store events) :
    o.getFile store events = none := by
  have hfalse := (forEachPart_copyPart (partSize o.recorded) store events .empty).2 h
  rw [PartedObject.getFile]
  generalize forEachPart (copyPart (partSize o.recorded) store) events .empty = r at hfalse
  obtain ⟨f, b⟩ := r
  cases hfalse
  rfl

/-- A turn that was begun is one of the run. -/
theorem turn_mem_of_begun {i : Nat} {fails : Bool} (h : (i, fails) ∈ begun events) :
    .turn i fails ∈ events := by
  induction events with
  | nil => cases h
  | cons e events ih =>
    cases e with
    | ended => cases h
    | turn j fails' =>
      rcases mem_cons.mp h with heq | h
      · cases heq
        exact mem_cons_self
      · exact mem_cons_of_mem _ (ih h)

/-- The parts copied are the first ones that have a turn, and all of them unless the context
ends. -/
theorem copied_parts (events : List PartEvent) :
    copied events <+: events.filterMap PartEvent.part? ∧
    (.ended ∉ events → copied events = events.filterMap PartEvent.part?) := by
  induction events with
  | nil => exact ⟨prefix_refl _, fun _ => rfl⟩
  | cons e events ih =>
    cases e with
    | ended =>
      refine ⟨?_, fun h => absurd mem_cons_self h⟩
      exact nil_prefix
    | turn i fails =>
      simp only [copied, begun, map_cons, filterMap_cons, PartEvent.part?]
      exact ⟨(prefix_cons_inj i).mpr ih.1, fun h => congrArg _ (ih.2 fun hm => h (mem_cons_of_mem _ hm))⟩

/-- Only parts of the file are copied. -/
theorem Complete.lt_of_copied (h : Complete n events) {i : Nat} (hi : i ∈ copied events) : i < n :=
  mem_range.mp (h.mem_iff.mp ((copied_parts events).1.subset hi))

/-- All parts are copied while the context lasts. -/
theorem Complete.mem_copied (h : Complete n events) (hended : .ended ∉ events) (i : Nat) :
    i ∈ copied events ↔ i < n := by
  rw [(copied_parts events).2 hended, h.mem_iff, mem_range]

/-- A part that had its turn is in the store after a `putParts` without an error, and stays
there. -/
theorem putParts_part {recorded i : Nat} (hok : (putParts recorded file events store).2 = true)
    (h : i ∈ copied events ∨ store i = some (partAt (partSize recorded) file i)) :
    (putParts recorded file events store).1 i = some (partAt (partSize recorded) file i) := by
  induction events generalizing store with
  | nil => exact h.resolve_left (by simp [copied, begun])
  | cons e events ih =>
    cases e with
    | ended => exact h.resolve_left (by simp [copied, begun])
    | turn j fails =>
      cases fails with
      | true => cases hok
      | false =>
        refine ih hok ?_
        by_cases hij : i = j
        · subst hij
          exact .inr (Function.update_self ..)
        · rw [Function.update_of_ne hij]
          simpa [copied, begun, hij] using h

/-- The parts in the store are those that a `putParts` without an error wrote, in any order, with no
end of its context. -/
def Stored (recorded : Nat) (file : Bytes) (store : PartStore) : Prop :=
  ∃ events old, Complete (partedObject recorded file).parts events ∧ .ended ∉ events ∧
    (putParts recorded file events old).2 = true ∧
    ∀ i < (partedObject recorded file).parts, store i = (putParts recorded file events old).1 i

/-- What `putParts` writes is the sections of the file. -/
theorem stored_iff {recorded : Nat} : Stored recorded file store ↔
    ∀ i < (partedObject recorded file).parts, store i =
      some (partAt (partSize recorded) file i) := by
  constructor
  · rintro ⟨events, old, hcomplete, hended, hok, hstore⟩ i hi
    rw [hstore i hi]
    exact putParts_part hok (.inl ((hcomplete.mem_copied hended i).mpr hi))
  · intro h
    -- one part after the other
    have hnever : ∀ l : List Nat, .ended ∉ l.map (PartEvent.turn · false) := fun l => by simp
    have hok : ∀ (l : List Nat) old, (putParts recorded file (l.map (.turn · false)) old).2 = true := by
      intro l
      induction l with
      | nil => exact fun _ => rfl
      | cons i l ih => exact fun _ => ih _
    have hcomplete : Complete (partedObject recorded file).parts
        ((range (partedObject recorded file).parts).map (.turn · false)) := by
      rw [Complete, filterMap_map, show PartEvent.part? ∘ (PartEvent.turn · false) = some from rfl,
        filterMap_some]
    refine ⟨_, fun _ => none, hcomplete, hnever _, hok _ _, fun i hi => ?_⟩
    rw [h i hi, putParts_part (hok _ _) (.inl ((hcomplete.mem_copied (hnever _) i).mpr hi))]

/-! ## Copies -/

theorem copyParts_concat (size : Nat) (part : Nat → Bytes) (order : List Nat) (i : Nat) :
    copyParts size part (order ++ [i]) =
      (copyParts size part order).writeAt (i * size) (part i) := by
  rw [copyParts, foldl_append]
  rfl

/-- The parts end at a position: none reaches beyond it, and one ends there. -/
def EndsAt (size : Nat) (part : Nat → Bytes) (order : List Nat) (n : Nat) : Prop :=
  (∀ i ∈ order, part i ≠ [] → i * size + (part i).length ≤ n) ∧
    (n = 0 ∨ ∃ i ∈ order, part i ≠ [] ∧ i * size + (part i).length = n)

/-- Parts end at one position. -/
theorem EndsAt.unique {m : Nat} (h : EndsAt size part order n) (h' : EndsAt size part order m) :
    n = m := by
  have hle : ∀ {n m}, EndsAt size part order n → EndsAt size part order m → n ≤ m := by
    rintro n m ⟨-, rfl | ⟨i, hi, hne, rfl⟩⟩ hm
    · exact Nat.zero_le m
    · exact hm.1 i hi hne
  exact le_antisymm (hle h h') (hle h' h)

variable (size part order) in
/-- The file ends where the parts do. -/
theorem endsAt_copyParts : EndsAt size part order (copyParts size part order).size := by
  induction order using List.reverseRecOn with
  | nil => exact ⟨nofun, .inl rfl⟩
  | append_singleton order j ih =>
    obtain ⟨hends, hreached⟩ := ih
    rw [copyParts_concat]
    generalize copyParts size part order = f at hends hreached
    have hold : ∀ i, (i ∈ order ∧ part i ≠ [] ∧ i * size + (part i).length = f.size) →
        i ∈ order ++ [j] ∧ part i ≠ [] ∧ i * size + (part i).length = f.size :=
      fun i h => ⟨mem_append_left _ h.1, h.2⟩
    simp only [DiskFile.writeAt]
    split_ifs with hnil
    · refine ⟨fun i hi hne => ?_, hreached.imp_right fun ⟨i, hi⟩ => ⟨i, hold i hi⟩⟩
      rcases mem_append.mp hi with hi | hi
      · exact hends i hi hne
      · exact absurd (mem_singleton.mp hi ▸ hnil) hne
    · constructor
      · intro i hi hne
        rcases mem_append.mp hi with hi | hi
        · exact (hends i hi hne).trans (le_max_left _ _)
        · exact mem_singleton.mp hi ▸ le_max_right _ _
      · rcases le_total f.size (j * size + (part j).length) with hle | hle
        · exact .inr ⟨j, by simp, hnil, (max_eq_right hle).symm⟩
        · simp only [max_eq_left hle]
          exact hreached.imp_right fun ⟨i, hi⟩ => ⟨i, hold i hi⟩

/-- The size of the file says where the parts end. -/
theorem endsAt_iff : EndsAt size part order n ↔ (copyParts size part order).size = n :=
  ⟨fun h => (endsAt_copyParts size part order).unique h,
    fun h => h ▸ endsAt_copyParts size part order⟩

/-- A position that no part covers is never written. -/
theorem byte_uncovered {p : Nat} (h : ∀ i ∈ order, p < i * size ∨ i * size + (part i).length ≤ p) :
    (copyParts size part order).byte p = 0 := by
  induction order using List.reverseRecOn with
  | nil => rfl
  | append_singleton order j ih =>
    rw [copyParts_concat]
    have hold := ih fun i hi => h i (mem_append_left _ hi)
    simp only [DiskFile.writeAt]
    split_ifs with hnil
    · exact hold
    · rcases h j (by simp) with hlt | hge
      · exact (if_neg (not_le.mpr hlt)).trans hold
      · simp only [getElem?_eq_none (show (part j).length ≤ p - j * size by omega),
          Option.getD_none, ite_self]
        exact hold

/-- Parts that fit are in their places. -/
theorem byte_copyParts (hfit : ∀ i ∈ order, (part i).length ≤ size) {i k : Nat} (hi : i ∈ order)
    (hk : k < (part i).length) :
    (part i)[k]? = some ((copyParts size part order).byte (i * size + k)) := by
  induction order using List.reverseRecOn with
  | nil => cases hi
  | append_singleton order j ih =>
    rw [copyParts_concat]
    have hj := hfit j (by simp)
    have hi' := hfit i hi
    simp only [DiskFile.writeAt]
    by_cases hij : i = j
    · subst hij
      rw [if_neg (length_pos_iff.mp (by omega))]
      simp [hk]
    · have hold := ih (fun x hx => hfit x (mem_append_left _ hx)) ((mem_append.mp hi).resolve_right (by simpa using hij))
      split_ifs with hnil
      · exact hold
      · dsimp only
        rw [hold]
        rcases Nat.lt_or_gt_of_ne hij with hlt | hgt
        · have hbefore := Nat.mul_le_mul_right size hlt
          rw [Nat.succ_mul] at hbefore
          rw [if_neg (by omega)]
        · have hbehind := Nat.mul_le_mul_right size hgt
          rw [Nat.succ_mul] at hbehind
          rw [getElem?_eq_none (by omega), Option.getD_none, ite_self]

/-- Where the parts before the last one are full, the file ends with the last one. -/
theorem endsAt_of_full {m : Nat} (hpos : 0 < size) (horder : ∀ i, i ∈ order ↔ i < m + 1)
    (hfull : ∀ i < m, (part i).length = size) :
    EndsAt size part order (m * size + (part m).length) := by
  constructor
  · intro i hi _
    rcases Nat.lt_or_ge i m with hlt | hge
    · have hle := Nat.mul_le_mul_right size hlt
      rw [Nat.succ_mul] at hle
      rw [hfull i hlt]
      omega
    · obtain rfl : i = m := le_antisymm (Nat.lt_succ_iff.mp ((horder i).mp hi)) hge
      exact le_rfl
  · by_cases hlast : part m = []
    · -- then the part before it ends the file
      rw [hlast, length_nil]
      cases m with
      | zero => exact .inl (by omega)
      | succ m =>
        have hlen := hfull m (by omega)
        refine .inr ⟨m, (horder m).mpr (by omega), length_pos_iff.mp (by omega), ?_⟩
        rw [hlen, Nat.succ_mul]
        rfl
    · exact .inr ⟨m, (horder m).mpr (by omega), hlast, rfl⟩

/-! ## What is read back -/

theorem length_partAt (size : Nat) (file : Bytes) (i : Nat) :
    (partAt size file i).length = min size (file.length - i * size) := by
  rw [partAt, length_take, length_drop]

theorem partSize_pos (recorded : Nat) : 0 < partSize recorded := by
  rw [partSize]
  split_ifs with h
  · exact h
  · decide

/-- A file ends in its last part. -/
theorem parts_partedObject (recorded : Nat) (file : Bytes) :
    ∃ m, (partedObject recorded file).parts = m + 1 ∧ m * partSize recorded ≤ file.length ∧
      file.length ≤ m * partSize recorded + partSize recorded := by
  have hpos := partSize_pos recorded
  simp only [partedObject]
  generalize partSize recorded = size at hpos
  have hle := Nat.div_mul_le_self (file.length + size - 1) size
  have hlt := Nat.lt_div_mul_add hpos (a := file.length + size - 1)
  cases hq : (file.length + size - 1) / size with
  | zero =>
    rw [hq] at hlt
    exact ⟨0, rfl, by omega, by omega⟩
  | succ m =>
    rw [hq, Nat.succ_mul] at hle hlt
    exact ⟨m, rfl, by omega, by omega⟩

/-- A byte of a part. -/
theorem getElem?_partAt {i k : Nat} (hk : k < size) :
    (partAt size file i)[k]? = file[i * size + k]? := by
  rw [partAt, getElem?_take_of_lt hk, getElem?_drop]

/-- Every byte of a file is in one of its parts. -/
theorem exists_part {recorded p : Nat} (hp : p < file.length) :
    ∃ i k, i < (partedObject recorded file).parts ∧
      k < (partAt (partSize recorded) file i).length ∧ i * partSize recorded + k = p := by
  obtain ⟨m, hm, -, hge⟩ := parts_partedObject recorded file
  have hpos := partSize_pos recorded
  have hsplit := Nat.div_add_mod' p (partSize recorded)
  have hmod := Nat.mod_lt p hpos
  refine ⟨p / partSize recorded, p % partSize recorded, ?_, ?_, hsplit⟩
  · rw [hm, Nat.div_lt_iff_lt_mul hpos, Nat.succ_mul]
    omega
  · rw [length_partAt]
    omega

/-- A file of the right size is compared byte by byte. -/
theorem content_eq {f : DiskFile} (hsize : f.size = file.length) :
    f.content = file ↔ ∀ p < file.length, f.byte p = (file[p]?).getD 0 := by
  rw [DiskFile.content, hsize, List.ext_getElem?_iff]
  refine ⟨fun h p hp => ?_, fun h p => ?_⟩
  · rw [← h p, getElem?_map, getElem?_range hp, Option.map_some, Option.getD_some]
  · rw [getElem?_map]
    by_cases hp : p < file.length
    · rw [getElem?_range hp, Option.map_some, h p hp, getElem?_eq_getElem hp, Option.getD_some]
    · rw [getElem?_eq_none (by simpa using hp), getElem?_eq_none (by omega), Option.map_none]

/-- A file **survives** a read: what `putParts` wrote comes back, unless the read is disturbed and
fails, and with a part that is missing or has another length the read fails. -/
def Survives (recorded : Nat) (file : Bytes) (store : PartStore) (events : List PartEvent) : Prop :=
  let o := partedObject recorded file
  (Stored recorded file store →
    o.getFile store events = some file ∨ Disturbed events ∧ o.getFile store events = none) ∧
  ((∃ i < o.parts, ∀ b ∈ store i, b.length ≠ (partAt (partSize recorded) file i).length) →
    o.getFile store events = none)

section

variable {recorded : Nat} (hstored : ∀ i < (partedObject recorded file).parts,
  store i = some (partAt (partSize recorded) file i))
  (hevents : Complete (partedObject recorded file).parts events)
include hstored hevents

/-- The position of a byte of a file in the copied parts: as written if its part was copied, else
zero. -/
theorem byte_copied {i k : Nat}
    (hk : k < (partAt (partSize recorded) file i).length) :
    (copyParts (partSize recorded) (fun i => (store i).getD []) (copied events)).byte
        (i * partSize recorded + k) =
      if i ∈ copied events then (file[i * partSize recorded + k]?).getD 0 else 0 := by
  have hlength (j : Nat) := length_partAt (partSize recorded) file j
  have hpart : ∀ j ∈ copied events, (store j).getD [] = partAt (partSize recorded) file j :=
    fun j hj => by
    rw [hstored j (hevents.lt_of_copied hj), Option.getD_some]
  split_ifs with hcopied
  · have hfit : ∀ j ∈ copied events, ((store j).getD []).length ≤ partSize recorded :=
      fun j hj => by
      rw [hpart j hj, hlength]
      exact Nat.min_le_left _ _
    have hbyte := byte_copyParts hfit hcopied (by rwa [hpart i hcopied])
    rw [hpart i hcopied, getElem?_partAt (by rw [hlength] at hk; omega)] at hbyte
    rw [hbyte, Option.getD_some]
  · refine byte_uncovered fun j hj => ?_
    have hne : j ≠ i := fun heq => hcopied (heq ▸ hj)
    rw [hpart j hj, hlength]
    rw [hlength] at hk
    rcases Nat.lt_or_gt_of_ne hne with hlt | hgt
    · have hbefore := Nat.mul_le_mul_right (partSize recorded) hlt
      rw [Nat.succ_mul] at hbefore
      omega
    · have hbehind := Nat.mul_le_mul_right (partSize recorded) hgt
      rw [Nat.succ_mul] at hbehind
      omega

/-- The copied parts read as the file exactly when the parts that were skipped hold zeros. -/
theorem content_eq_iff
    (hsize : (copyParts (partSize recorded) (fun i => (store i).getD []) (copied events)).size =
      file.length) :
    (copyParts (partSize recorded) (fun i => (store i).getD []) (copied events)).content = file ↔
      ∀ i < (partedObject recorded file).parts,
        i ∈ copied events ∨ ∀ b ∈ partAt (partSize recorded) file i, b = 0 := by
  have hlength (j : Nat) := length_partAt (partSize recorded) file j
  rw [content_eq hsize]
  constructor
  · intro h i hi
    refine or_iff_not_imp_left.mpr fun hskipped b hb => ?_
    obtain ⟨k, hk, rfl⟩ := mem_iff_getElem.mp hb
    have hbound := hk
    rw [hlength] at hbound
    have hbyte := h (i * partSize recorded + k) (by omega)
    rw [byte_copied hstored hevents hk, if_neg hskipped, ← getElem?_partAt (by omega),
      getElem?_eq_getElem hk, Option.getD_some] at hbyte
    exact hbyte.symm
  · intro h p hp
    obtain ⟨i, k, hi, hk, rfl⟩ := @exists_part file recorded p hp
    rw [byte_copied hstored hevents hk]
    split_ifs with hcopied
    · rfl
    · have hzero := (h i hi).resolve_left hcopied _ (getElem_mem hk)
      rw [← getElem?_partAt (by rw [hlength] at hk; omega), getElem?_eq_getElem hk,
        Option.getD_some, hzero]

/-- Without a disturbance the parts that were written end where the file does. -/
theorem endsAt_of_stored (hended : .ended ∉ events) :
    EndsAt (partSize recorded) (fun i => (store i).getD []) (copied events) file.length := by
  obtain ⟨m, hm, hle, hge⟩ := parts_partedObject recorded file
  have hpart : ∀ i ≤ m, (store i).getD [] = partAt (partSize recorded) file i := fun i hi => by
    rw [hstored i (by omega), Option.getD_some]
  have hfull : ∀ i < m, ((store i).getD []).length = partSize recorded := fun i hi => by
    have hmul := Nat.mul_le_mul_right (partSize recorded) hi
    rw [Nat.succ_mul] at hmul
    rw [hpart i hi.le, length_partAt]
    omega
  have h := endsAt_of_full (partSize_pos recorded) (fun i => hm ▸ hevents.mem_copied hended i) hfull
  rwa [hpart m le_rfl, length_partAt, show m * partSize recorded +
    min (partSize recorded) (file.length - m * partSize recorded) = file.length by omega] at h

end

/-- Three bytes in parts of two. -/
def threeBytes : PartStore := fun i => [[1, 2], [3]][i]?

/-- So does a first part whose turn comes after the context has ended, though nothing is wrong with
it. -/
theorem hole_of_skipped :
    (partedObject 2 [1, 2, 3]).getFile threeBytes [.turn 1 false, .ended, .turn 0 false] =
      some [0, 0, 3] := by
  decide +kernel

end GitSlice.PackMirror
