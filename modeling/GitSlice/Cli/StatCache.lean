import Mathlib.Algebra.Order.Group.Nat
import GitSlice.Library.Machine
import GitSlice.Library.Table
import GitSlice.Diff.Lines

/-! # The stat cache
A scan of a workspace uses a recorded content hash instead of reading a file when the file's size,
modification time and mode are the recorded ones. Scans and hydrations record files and replace the
cache, each in several steps that can interleave with each other and with writes of the user.

An entry is `Honest` when a file that looks like it has the content it records, now and later. Scans
record files modified well before they started, and such entries are honest. A hydration looks at a
file after it has written it and records the hash it meant to write: its entries are honest only if
nobody else writes the file in between, or later in the same tick of the clock. -/

namespace GitSlice.StatCache

open Table Option

/-- `statCacheClockSlack`, in nanoseconds. -/
def clockSlack : Nat := 10000000

/-- The clock of the file system: it shows the beginning of the current tick. -/
structure Clock where
  /-- The time a file gets that is written at a moment. -/
  tick : Nat → Nat
  /-- It does not go back. -/
  mono : Monotone tick
  /-- It is not ahead. -/
  le : ∀ t, tick t ≤ t
  /-- Its ticks are at most `clockSlack` long. -/
  close : ∀ t, t < tick t + clockSlack

/-- `statCacheEntry`. -/
structure Entry where
  size : Nat
  /-- `ModTimeNs`. -/
  modTime : Nat
  mode : Nat
  contentHash : String
deriving DecidableEq

/-- `statCache`. -/
structure Cache where
  /-- `Files`, by relative path. -/
  files : Table String Entry
  /-- `writtenAt`: the modification time of the cache file. -/
  writtenAt : Nat

/-- The cache of a workspace that has none. -/
def Cache.none : Cache := ⟨.empty, 0⟩

/-- `hash`: a file's recorded content hash, when it can be trusted. -/
def Cache.hash (c : Cache) (rel : String) (size modTime mode : Nat) : Option String :=
  match c.files.get rel with
  | .none => .none
  | some e =>
    if e.size ≠ size ∨ e.modTime ≠ modTime ∨ e.mode ≠ mode ∨ e.contentHash = "" then .none
    else if modTime < c.writtenAt then some e.contentHash
    else .none

/-- A regular file of the workspace. -/
structure File where
  content : Bytes
  /-- Its mode, `0o100644` or `0o100755`. -/
  mode : Nat
  modTime : Nat
  /-- It was last written by a hydration. -/
  hydrated : Bool
deriving DecidableEq

/-- `statCacheEntryFor`. -/
def File.entry (f : File) (contentHash : String) : Entry :=
  ⟨f.content.length, f.modTime, f.mode, contentHash⟩

/-- A hydration: `hydrateWith`. -/
structure Hydration where
  /-- The files that are written and not yet recorded, with the hashes of the tree entries. -/
  written : Table String String := .empty
  stats : Table String Entry := .empty
  /-- The cache that was read, with `stats` put into it. -/
  merged : Option (Table String Entry) := none
  /-- The temporary file of `writeStatCache`. -/
  temp : Option Cache := none

/-- `workspaceScanCandidate`. -/
structure Candidate where
  size : Nat
  modTime : Nat
  mode : Nat
deriving DecidableEq

/-- A scan: `scanWorkspaceFilesWithStats`. -/
structure Scan where
  /-- `walkStarted`. -/
  started : Nat
  /-- The modification time `readStatCache` found. -/
  stated : Option Nat := none
  known : Option Cache := none
  /-- `candidates`, by relative path. -/
  candidates : Table String Candidate := .empty
  /-- The content hashes of `objects`, by relative path. -/
  objects : Table String String := .empty
  /-- The temporary file of `writeStatCache`. -/
  temp : Option Cache := none
  /-- The contents that files have had since the scan began. -/
  moments : List (String × Bytes)

/-- A workspace with the hydrations and scans that are under way. -/
structure State where
  /-- The time. -/
  now : Nat
  /-- The files, by relative path. -/
  files : Table String File
  /-- The cache file. -/
  cache : Cache
  hydrations : Table Nat Hydration
  scans : Table Nat Scan

/-- One step of anybody. -/
inductive Event where
  /-- Time passes. -/
  | advance (d : Nat)
  /-- The user writes a file. -/
  | write (rel : String) (content : Bytes) (mode : Nat)
  /-- The user removes a file. -/
  | remove (rel : String)
  /-- `writeWorkspaceFile`. -/
  | hydrateWrite (id : Nat) (rel : String) (content : Bytes) (mode : Nat)
  /-- `recordFile`. -/
  | hydrateRecord (id : Nat) (rel : String)
  /-- `readStatCache`, and `stats` put into the cache. -/
  | hydrateRead (id : Nat)
  /-- `writeStatCache` writes its temporary file. -/
  | hydrateTemp (id : Nat)
  /-- `writeStatCache` renames it, and the hydration is over. -/
  | hydrateRename (id : Nat)
  /-- A scan begins. -/
  | scanBegin (id : Nat)
  /-- `readStatCache` looks at the cache file. -/
  | scanStatCache (id : Nat)
  /-- `readStatCache` reads the cache file. -/
  | scanReadCache (id : Nat)
  /-- The walk comes to a file. -/
  | scanStat (id : Nat) (rel : String)
  /-- A candidate gets its hash; `held` says whether the client cache has the recorded content. -/
  | scanHash (id : Nat) (rel : String) (held : Bool)
  /-- `recordStatCache` writes the temporary file, if something changed. -/
  | scanTemp (id : Nat)
  /-- `writeStatCache` renames it. -/
  | scanRename (id : Nat)
deriving DecidableEq

variable (k : Clock) (hash : Bytes → String)

/-- A file is written now. -/
def State.put (st : State) (rel : String) (content : Bytes) (mode : Nat) (hydrated : Bool) :
    State :=
  { st with
    files := st.files.set rel ⟨content, mode, k.tick st.now, hydrated⟩
    scans := st.scans.update fun _ s => { s with moments := (rel, content) :: s.moments } }

/-- A scan that begins. -/
def Scan.begin (now : Nat) (files : Table String File) : Scan :=
  { started := now, moments := files.rows.map fun row => (row.1, row.2.content) }

/-- The entries `recordStatCache` records. -/
def Scan.recorded (s : Scan) : Table String Entry :=
  s.candidates.rows.foldl (fun t row =>
    match s.objects.get row.1 with
    | some h =>
      if row.2.modTime + clockSlack < s.started then
        t.set row.1 ⟨row.2.size, row.2.modTime, row.2.mode, h⟩
      else t
    | none => t) .empty

/-- `recordStatCache` has something to write. -/
def Scan.changed (s : Scan) (known : Cache) : Bool :=
  s.recorded.rows.any (fun row => known.files.get row.1 ≠ some row.2) ||
    decide (s.recorded.rows.length ≠ known.files.rows.length)

/-- The hash a candidate gets: the recorded one, or that of the content the file has now. -/
def Scan.objectFor (s : Scan) (known : Cache) (files : Table String File) (rel : String)
    (held : Bool) :
    Option String :=
  match s.candidates.get rel with
  | none => none
  | some c =>
    match known.hash rel c.size c.modTime c.mode with
    | some h => if held then some h else (files.get rel).map fun f => hash f.content
    | none => (files.get rel).map fun f => hash f.content

namespace State

variable (st : State)

/-- A step of a hydration that is under way. -/
def withHydration (id : Nat) (f : Hydration → Option Hydration) : State :=
  match st.hydrations.get id with
  | none => st
  | some h =>
    match f h with
    | none => st
    | some h' => { st with hydrations := st.hydrations.set id h' }

/-- A step of a scan that is under way. -/
def withScan (id : Nat) (f : Scan → Option Scan) : State :=
  match st.scans.get id with
  | none => st
  | some s =>
    match f s with
    | none => st
    | some s' => { st with scans := st.scans.set id s' }

/-- One step; what is not possible changes nothing. -/
def step : Event → State
  | .advance d => { st with now := st.now + d }
  | .write rel content mode => st.put k rel content mode false
  | .remove rel => { st with files := st.files.erase rel }
  | .hydrateWrite id rel content mode =>
    let h := (st.hydrations.get id).getD {}
    { st.put k rel content mode true with
      hydrations := st.hydrations.set id { h with written := h.written.set rel (hash content) } }
  | .hydrateRecord id rel =>
    st.withHydration id fun h =>
      match h.written.get rel, st.files.get rel with
      | some contentHash, some f =>
        some { h with
          written := h.written.erase rel, stats := h.stats.set rel (f.entry contentHash) }
      | some _, none => some { h with written := h.written.erase rel }
      | none, _ => none
  | .hydrateRead id =>
    st.withHydration id fun h =>
      if h.written.rows = [] ∧ h.stats.rows ≠ [] then
        some { h with merged := some (h.stats.rows.foldl (fun t row => t.set row.1 row.2) st.cache.files) }
      else none
  | .hydrateTemp id =>
    st.withHydration id fun h => h.merged.map fun files => { h with temp := some ⟨files, k.tick st.now⟩ }
  | .hydrateRename id =>
    match (st.hydrations.get id).bind Hydration.temp with
    | none => st
    | some cache => { st with cache := cache, hydrations := st.hydrations.erase id }
  | .scanBegin id =>
    if (st.scans.get id).isSome then st
    else { st with scans := st.scans.set id (Scan.begin st.now st.files) }
  | .scanStatCache id => st.withScan id fun s => some { s with stated := some st.cache.writtenAt }
  | .scanReadCache id =>
    st.withScan id fun s =>
      match s.known, s.stated with
      | none, some writtenAt => some { s with known := some ⟨st.cache.files, writtenAt⟩ }
      | _, _ => none
  | .scanStat id rel =>
    st.withScan id fun s =>
      match s.known, s.candidates.get rel, st.files.get rel with
      | some _, none, some f =>
        some { s with candidates := s.candidates.set rel ⟨f.content.length, f.modTime, f.mode⟩ }
      | _, _, _ => none
  | .scanHash id rel held =>
    st.withScan id fun s =>
      match s.known, s.objects.get rel with
      | some known, none =>
        (s.objectFor hash known st.files rel held).map fun h => { s with objects := s.objects.set rel h }
      | _, _ => none
  | .scanTemp id =>
    st.withScan id fun s =>
      match s.known with
      | some known =>
        if s.candidates.rows.all (fun row => (s.objects.get row.1).isSome) ∧ s.changed known then
          some { s with temp := some ⟨s.recorded, k.tick st.now⟩ }
        else none
      | none => none
  | .scanRename id =>
    match (st.scans.get id).bind Scan.temp with
    | none => st
    | some cache => { st with cache := cache }

/-- A hydration has written the file and not yet recorded it. -/
def unrecorded (rel : String) : Bool :=
  st.hydrations.rows.any fun row => (row.2.written.get rel).isSome

/-- The file was last written by a hydration, in the current tick. -/
def freshlyHydrated (rel : String) : Bool :=
  (st.files.get rel).any fun f => f.hydrated && f.modTime = k.tick st.now

/-- Nobody writes a file that a hydration has written and not yet recorded, or that one has written
in the same tick. -/
def quiet : Event → Bool
  | .write rel _ _ => !st.unrecorded rel && !st.freshlyHydrated k rel
  | .remove rel => !st.unrecorded rel && !st.freshlyHydrated k rel
  | .hydrateWrite _ rel _ _ => !st.unrecorded rel && !st.freshlyHydrated k rel
  | _ => true

/-- A workspace without a cache. -/
def start (now : Nat) (files : Table String File) : State := ⟨now, files, .none, .empty, .empty⟩

end State

/-! ## Honest entries -/

/-- The file looks as the entry says. -/
def Entry.Looks (e : Entry) (f : File) : Prop :=
  e.size = f.content.length ∧ e.modTime = f.modTime ∧ e.mode = f.mode

/-- A file that looks like the entry has the recorded content; in the tick of the entry it has to be
the hydrated file. -/
structure Honest (st : State) (rel : String) (e : Entry) : Prop where
  content : ∀ f, st.files.get rel = some f → e.Looks f → hash f.content = e.contentHash
  past : e.modTime ≤ k.tick st.now
  fresh : e.modTime = k.tick st.now → st.freshlyHydrated k rel = true

/-- All entries are honest. -/
def AllHonest (st : State) (t : Table String Entry) : Prop :=
  ∀ rel e, t.get rel = some e → Honest k hash st rel e

/-- Honest entries stay honest. -/
def Keeps (st st' : State) : Prop := ∀ rel e, Honest k hash st rel e → Honest k hash st' rel e

variable {k hash} {st st' : State} {rel : String} {e : Entry} {t : Table String Entry}

theorem AllHonest.keep (h : AllHonest k hash st t) (hk : Keeps k hash st st') :
    AllHonest k hash st' t := fun rel e he => hk rel e (h rel e he)

theorem freshlyHydrated_iff :
    st.freshlyHydrated k rel = true ↔
      ∃ f, st.files.get rel = some f ∧ f.hydrated = true ∧ f.modTime = k.tick st.now := by
  rw [State.freshlyHydrated]
  cases st.files.get rel with
  | none => simp
  | some f => simp

theorem keeps_of_eq (hnow : st'.now = st.now) (hfiles : st'.files = st.files) :
    Keeps k hash st st' := by
  intro rel e h
  refine ⟨?_, ?_, ?_⟩
  · rw [hfiles]
    exact h.content
  · rw [hnow]
    exact h.past
  · rw [State.freshlyHydrated, hfiles, hnow]
    exact h.fresh

theorem keeps_advance (d : Nat) : Keeps k hash st { st with now := st.now + d } := by
  intro rel e h
  have hmono : k.tick st.now ≤ k.tick (st.now + d) := k.mono (Nat.le_add_right _ _)
  refine ⟨h.content, h.past.trans hmono, fun heq => ?_⟩
  have hsame : k.tick st.now = k.tick (st.now + d) := le_antisymm hmono (heq ▸ h.past)
  obtain ⟨f, hf, hhydrated, htime⟩ := freshlyHydrated_iff.mp (h.fresh (heq.trans hsame.symm))
  exact freshlyHydrated_iff.mpr ⟨f, hf, hhydrated, htime.trans hsame⟩

/-- A file that is replaced in a later tick than an entry's no longer looks like it. -/
theorem Honest.lt (h : Honest k hash st rel e) (hquiet : st.freshlyHydrated k rel = false) :
    e.modTime < k.tick st.now := by
  refine lt_of_le_of_ne h.past fun heq => ?_
  rw [h.fresh heq] at hquiet
  cases hquiet

variable {files : Table String File} {scans : Table Nat Scan}

theorem keeps_replace {rel' : String} (hquiet : st.freshlyHydrated k rel' = false)
    (hother : ∀ rel, rel ≠ rel' → files.get rel = st.files.get rel)
    (hself : ∀ f, files.get rel' = some f → f.modTime = k.tick st.now) :
    Keeps k hash st { st with files := files, scans := scans } := by
  intro rel e h
  by_cases hrel : rel = rel'
  · subst hrel
    have hlt := h.lt hquiet
    refine ⟨fun f hf hlooks => ?_, h.past, fun heq => absurd heq (Nat.ne_of_lt hlt)⟩
    exact absurd (hlooks.2.1.trans (hself f hf)) (Nat.ne_of_lt hlt)
  · refine ⟨fun f hf => h.content f ((hother rel hrel).symm.trans hf), h.past, fun heq => ?_⟩
    obtain ⟨f, hf, hhydrated⟩ := freshlyHydrated_iff.mp (h.fresh heq)
    exact freshlyHydrated_iff.mpr ⟨f, (hother rel hrel).trans hf, hhydrated⟩

/-! ## The invariant -/

variable (k hash)

/-- What holds of a hydration: what it has not recorded yet is still there. -/
structure HydrationOk (st : State) (h : Hydration) : Prop where
  written : ∀ rel contentHash, h.written.get rel = some contentHash →
    ∃ f, st.files.get rel = some f ∧ f.hydrated = true ∧ hash f.content = contentHash
  stats : AllHonest k hash st h.stats
  merged : ∀ t, h.merged = some t → AllHonest k hash st t
  temp : ∀ c, h.temp = some c → AllHonest k hash st c.files

/-- The hash is that of a content the file had since the scan began. -/
def Scan.Had (s : Scan) (rel contentHash : String) : Prop :=
  ∃ content, (rel, content) ∈ s.moments ∧ hash content = contentHash

/-- What holds of a scan. -/
structure ScanOk (st : State) (s : Scan) : Prop where
  started : s.started ≤ st.now
  moments : ∀ rel f, st.files.get rel = some f → (rel, f.content) ∈ s.moments
  known : ∀ c, s.known = some c → AllHonest k hash st c.files
  past : ∀ rel c, s.candidates.get rel = some c → c.modTime ≤ k.tick st.now
  trusted : ∀ rel c known h, s.candidates.get rel = some c → s.known = some known →
    known.hash rel c.size c.modTime c.mode = some h → s.Had hash rel h
  objects : ∀ rel h, s.objects.get rel = some h → s.candidates.get rel ≠ none ∧ s.Had hash rel h
  recorded : ∀ rel c h, s.candidates.get rel = some c → s.objects.get rel = some h →
    c.modTime + clockSlack < s.started → Honest k hash st rel ⟨c.size, c.modTime, c.mode, h⟩
  temp : ∀ c, s.temp = some c → AllHonest k hash st c.files
  unread : s.known = none → ∀ rel, s.candidates.get rel = none

/-- What holds of every state. -/
structure Inv (st : State) : Prop where
  times : ∀ rel f, st.files.get rel = some f → f.modTime ≤ k.tick st.now
  cache : AllHonest k hash st st.cache.files
  hydrations : ∀ id h, st.hydrations.get id = some h → HydrationOk k hash st h
  scans : ∀ id s, st.scans.get id = some s → ScanOk k hash st s

variable {k hash} {mode : Nat}

theorem Cache.hash_eq_some {c : Cache} {size modTime : Nat} {h : String}
    (hh : c.hash rel size modTime mode = some h) :
    c.files.get rel = some ⟨size, modTime, mode, h⟩ := by
  rw [Cache.hash] at hh
  split at hh
  · cases hh
  · rename_i e he
    split_ifs at hh with hmatch htime
    simp only [not_or, not_not] at hmatch
    obtain ⟨rfl, rfl, rfl, -⟩ := hmatch
    cases hh
    exact he

variable {h : Hydration}

theorem HydrationOk.keep (ho : HydrationOk k hash st h) (hk : Keeps k hash st st')
    (hwritten : ∀ rel contentHash, h.written.get rel = some contentHash →
      st'.files.get rel = st.files.get rel) : HydrationOk k hash st' h := by
  refine ⟨fun rel contentHash hw => ?_, ho.stats.keep hk, fun t ht => (ho.merged t ht).keep hk,
    fun c hc => (ho.temp c hc).keep hk⟩
  rw [hwritten rel contentHash hw]
  exact ho.written rel contentHash hw

variable {s : Scan}

theorem ScanOk.keep (ho : ScanOk k hash st s) (hk : Keeps k hash st st') (hnow : st.now ≤ st'.now)
    (hmoments : ∀ rel f, st'.files.get rel = some f → (rel, f.content) ∈ s.moments) :
    ScanOk k hash st' s :=
  ⟨ho.started.trans hnow, hmoments, fun c hc => (ho.known c hc).keep hk,
    fun rel c hc => (ho.past rel c hc).trans (k.mono hnow), ho.trusted, ho.objects,
    fun rel c h hc hh hlt => hk _ _ (ho.recorded rel c h hc hh hlt), fun c hc => (ho.temp c hc).keep hk,
    ho.unread⟩

theorem ScanOk.moment (ho : ScanOk k hash st s) (x : String × Bytes) :
    ScanOk k hash st { s with moments := x :: s.moments } := by
  have hhad : ∀ {rel h}, s.Had hash rel h →
      Scan.Had hash { s with moments := x :: s.moments } rel h :=
    fun ⟨content, hmem, hcontent⟩ => ⟨content, List.mem_cons_of_mem x hmem, hcontent⟩
  exact { ho with
    moments := fun rel f hf => List.mem_cons_of_mem x (ho.moments rel f hf)
    trusted := fun rel c known h hc hk hh => hhad (ho.trusted rel c known h hc hk hh)
    objects := fun rel h hh => ⟨(ho.objects rel h hh).1, hhad (ho.objects rel h hh).2⟩ }

variable {id : Nat}

theorem unrecorded_eq_false (hquiet : st.unrecorded rel = false)
    (hh : st.hydrations.get id = some h) : h.written.get rel = none := by
  rw [State.unrecorded, List.any_eq_false] at hquiet
  have hrow := hquiet (id, h) ((st.hydrations.mem_rows_iff id h).mpr hh)
  simpa using hrow

section

variable (hi : Inv k hash st)
include hi

theorem Inv.of_same (hnow : st'.now = st.now) (hfiles : st'.files = st.files)
    (hcache : AllHonest k hash st st'.cache.files)
    (hhydrations : ∀ id h, st'.hydrations.get id = some h → HydrationOk k hash st h)
    (hscans : ∀ id s, st'.scans.get id = some s → ScanOk k hash st s) : Inv k hash st' := by
  have hk : Keeps k hash st st' := keeps_of_eq hnow hfiles
  refine ⟨fun rel f hf => ?_, hcache.keep hk, fun id h hh => ?_, fun id s hs => ?_⟩
  · rw [hfiles] at hf
    rw [hnow]
    exact hi.times rel f hf
  · exact (hhydrations id h hh).keep hk fun _ _ _ => by rw [hfiles]
  · refine (hscans id s hs).keep hk (le_of_eq hnow.symm) fun rel f hf => ?_
    rw [hfiles] at hf
    exact (hscans id s hs).moments rel f hf

section

variable (hwritten : st.unrecorded rel = false) (hfresh : st.freshlyHydrated k rel = false)
include hwritten hfresh

theorem Inv.replace (hother : ∀ rel', rel' ≠ rel → files.get rel' = st.files.get rel')
    (hself : ∀ f, files.get rel = some f → f.modTime = k.tick st.now)
    (hscans : ∀ id s, scans.get id = some s → ScanOk k hash st s ∧
      ∀ rel f, files.get rel = some f → (rel, f.content) ∈ s.moments) :
    Inv k hash { st with files := files, scans := scans } := by
  have hk : Keeps k hash st { st with files := files, scans := scans } :=
    keeps_replace hfresh hother hself
  refine ⟨fun rel' f hf => ?_, hi.cache.keep hk, fun id h hh => ?_,
    fun id s hs => (hscans id s hs).1.keep hk le_rfl (hscans id s hs).2⟩
  · by_cases hrel : rel' = rel
    · subst hrel
      exact (hself f hf).le
    · exact hi.times rel' f ((hother rel' hrel).symm.trans hf)
  · refine (hi.hydrations id h hh).keep hk fun rel' contentHash hw => hother rel' ?_
    rintro rfl
    rw [unrecorded_eq_false hwritten hh] at hw
    cases hw

theorem Inv.put (content : Bytes) (mode : Nat) (hydrated : Bool) :
    Inv k hash (st.put k rel content mode hydrated) := by
  refine hi.replace hwritten hfresh (fun _ => get_set_of_ne _ _) (fun f hf => ?_) fun id s hs => ?_
  · rw [get_set_self] at hf
    cases hf
    rfl
  · rw [get_update, map_eq_some_iff] at hs
    obtain ⟨s, hs, rfl⟩ := hs
    have hok := hi.scans id s hs
    exact ⟨hok.moment (rel, content), forall_set
      (fun rel' f hf => List.mem_cons_of_mem _ (hok.moments rel' f hf)) List.mem_cons_self⟩

theorem Inv.remove : Inv k hash { st with files := st.files.erase rel } := by
  refine hi.replace hwritten hfresh (fun rel' hrel => ?_) (fun f hf => ?_) fun id s hs => ?_
  · rw [get_erase, if_neg hrel]
  · rw [get_erase, if_pos rfl] at hf
    cases hf
  · exact ⟨hi.scans id s hs, fun rel' f hf => (hi.scans id s hs).moments rel' f (get_of_erase hf)⟩

end

theorem Inv.advance (d : Nat) : Inv k hash { st with now := st.now + d } := by
  have hk : Keeps k hash st { st with now := st.now + d } := keeps_advance d
  have hle : st.now ≤ st.now + d := Nat.le_add_right _ _
  exact ⟨fun rel f hf => (hi.times rel f hf).trans (k.mono hle), hi.cache.keep hk,
    fun id h hh => (hi.hydrations id h hh).keep hk fun _ _ _ => rfl,
    fun id s hs => (hi.scans id s hs).keep hk hle (hi.scans id s hs).moments⟩

end

/-! ## Steps of hydrations -/

theorem AllHonest.set (h : AllHonest k hash st t) (he : Honest k hash st rel e) :
    AllHonest k hash st (t.set rel e) := forall_set h he

section

variable (hi : Inv k hash st)
include hi

theorem Inv.withHydration {f : Hydration → Option Hydration}
    (hf : ∀ h h', HydrationOk k hash st h → f h = some h' → HydrationOk k hash st h') :
    Inv k hash (st.withHydration id f) := by
  rw [State.withHydration]
  cases hget : st.hydrations.get id with
  | none => exact hi
  | some h =>
    dsimp only
    cases hstep : f h with
    | none => exact hi
    | some h' =>
      have hok := hf h _ (hi.hydrations id h hget) hstep
      exact hi.of_same rfl rfl hi.cache (forall_set hi.hydrations hok) hi.scans

theorem honest_entry {f : File} {contentHash : String} (hf : st.files.get rel = some f)
    (hhydrated : f.hydrated = true) (hcontent : hash f.content = contentHash) :
    Honest k hash st rel (f.entry contentHash) := by
  refine ⟨fun f' hf' _ => ?_, hi.times rel f hf,
    fun heq => freshlyHydrated_iff.mpr ⟨f, hf, hhydrated, heq⟩⟩
  rw [hf] at hf'
  cases hf'
  exact hcontent

theorem inv_hydrateWrite {content : Bytes}
    (hquiet : st.quiet k (.hydrateWrite id rel content mode) = true) :
    Inv k hash (st.step k hash (.hydrateWrite id rel content mode)) := by
  rw [State.quiet, Bool.and_eq_true, Bool.not_eq_true', Bool.not_eq_true'] at hquiet
  have hput := hi.put hquiet.1 hquiet.2 content mode true
  have hold : HydrationOk k hash (st.put k rel content mode true) ((st.hydrations.get id).getD {}) := by
    cases hget : st.hydrations.get id with
    | none => exact ⟨by simp, by simp [AllHonest], by simp, by simp⟩
    | some h => exact hput.hydrations id h hget
  refine hput.of_same rfl rfl hput.cache (forall_set hput.hydrations ?_) hput.scans
  have hnow : ∃ f, (st.put k rel content mode true).files.get rel = some f ∧ f.hydrated = true ∧
      hash f.content = hash content := ⟨_, get_set_self _ _ _, rfl, rfl⟩
  exact { hold with written := forall_set hold.written hnow }

theorem inv_hydrateRecord : Inv k hash (st.step k hash (.hydrateRecord id rel)) := by
  refine hi.withHydration fun h h' ho hstep => ?_
  cases hw : h.written.get rel with
  | none =>
    rw [hw] at hstep
    cases hstep
  | some contentHash =>
    obtain ⟨f, hf, hhydrated, hcontent⟩ := ho.written rel contentHash hw
    rw [hw, hf] at hstep
    cases hstep
    exact { ho with
      written := fun rel' contentHash hw => ho.written rel' contentHash (get_of_erase hw)
      stats := ho.stats.set (honest_entry hi hf hhydrated hcontent) }

theorem inv_hydrateRead : Inv k hash (st.step k hash (.hydrateRead id)) := by
  refine hi.withHydration fun h h' ho hstep => ?_
  split_ifs at hstep
  cases hstep
  refine { ho with merged := fun t ht rel e he => ?_ }
  cases ht
  rcases get_foldl_set _ _ he with hcache | hstats
  · exact hi.cache rel e hcache
  · exact ho.stats rel e ((h.stats.mem_rows_iff rel e).mp hstats)

theorem inv_hydrateTemp : Inv k hash (st.step k hash (.hydrateTemp id)) := by
  refine hi.withHydration fun h h' ho hstep => ?_
  obtain ⟨files, hmerged, rfl⟩ := map_eq_some_iff.mp hstep
  refine { ho with temp := fun c hc => ?_ }
  cases hc
  exact ho.merged files hmerged

theorem inv_hydrateRename : Inv k hash (st.step k hash (.hydrateRename id)) := by
  rw [State.step]
  cases hget : (st.hydrations.get id).bind Hydration.temp with
  | none => exact hi
  | some cache =>
    obtain ⟨h, hh, htemp⟩ := bind_eq_some_iff.mp hget
    exact hi.of_same rfl rfl ((hi.hydrations id h hh).temp cache htemp)
      (fun id' h' hh' => hi.hydrations id' h' (get_of_erase hh')) hi.scans

end

/-! ## Steps of scans -/

variable {known : Cache} {held : Bool}

theorem objectFor_cases {h : String} (hh : s.objectFor hash known files rel held = some h) :
    ∃ c, s.candidates.get rel = some c ∧ (known.hash rel c.size c.modTime c.mode = some h ∨
      ∃ f, files.get rel = some f ∧ hash f.content = h) := by
  rw [Scan.objectFor] at hh
  split at hh
  · cases hh
  · rename_i c hc
    refine ⟨c, hc, ?_⟩
    split at hh
    · rename_i hknown
      split_ifs at hh
      · exact .inl (hknown.trans hh)
      · exact .inr (map_eq_some_iff.mp hh)
    · exact .inr (map_eq_some_iff.mp hh)

/-- A candidate gets its hash. What a scan will record is honest: later writes come in later
ticks. -/
theorem scanOk_hash {h : String} (ho : ScanOk k hash st s) (hknown : s.known = some known)
    (hh : s.objectFor hash known st.files rel held = some h) :
    ScanOk k hash st { s with objects := s.objects.set rel h } := by
  obtain ⟨c, hc, hsource⟩ := objectFor_cases hh
  have hhad : s.Had hash rel h := by
    rcases hsource with htrusted | ⟨f, hf, hcontent⟩
    · exact ho.trusted _ c known h hc hknown htrusted
    · exact ⟨f.content, ho.moments _ f hf, hcontent⟩
  refine { ho with
    objects := forall_set ho.objects ⟨by rw [hc]; simp, hhad⟩, recorded := fun rel' c' h' hc' hh' hlt => ?_ }
  rcases get_set_cases hh' with ⟨rfl, rfl⟩ | ⟨-, hh'⟩
  · rw [hc] at hc'
    cases hc'
    rcases hsource with htrusted | ⟨f, hf, hcontent⟩
    · exact ho.known known hknown _ _ (Cache.hash_eq_some htrusted)
    · have hbefore : c.modTime < k.tick st.now := by
        have hstarted : c.modTime + clockSlack < s.started := hlt
        have hclose := k.close s.started
        have hmono := k.mono ho.started
        omega
      refine ⟨fun f' hf' _ => ?_, ho.past _ c hc, fun heq => absurd heq (Nat.ne_of_lt hbefore)⟩
      rw [hf] at hf'
      cases hf'
      exact hcontent
  · exact ho.recorded rel' c' h' hc' hh' hlt

/-- The entries are those of candidates that have their hash. -/
def Scan.Records (s : Scan) (t : Table String Entry) : Prop := ∀ rel e, t.get rel = some e →
  ∃ c h, s.candidates.get rel = some c ∧ s.objects.get rel = some h ∧
    c.modTime + clockSlack < s.started ∧ e = ⟨c.size, c.modTime, c.mode, h⟩

theorem records_recorded (s : Scan) : s.Records s.recorded := by
  refine List.foldlRecOn s.candidates.rows _ (fun rel e he => by simp at he) fun t ht row hrow => ?_
  cases hobject : s.objects.get row.1 with
  | none => exact ht
  | some h =>
    split_ifs with hlt
    · exact forall_set ht ⟨row.2, h, (s.candidates.mem_rows_iff row.1 row.2).mp hrow, hobject, hlt, rfl⟩
    · exact ht

section

variable (hi : Inv k hash st)
include hi

theorem Inv.withScan {f : Scan → Option Scan}
    (hf : ∀ s s', ScanOk k hash st s → f s = some s' → ScanOk k hash st s') :
    Inv k hash (st.withScan id f) := by
  rw [State.withScan]
  cases hget : st.scans.get id with
  | none => exact hi
  | some s =>
    dsimp only
    cases hstep : f s with
    | none => exact hi
    | some s' =>
      have hok := hf s _ (hi.scans id s hget) hstep
      exact hi.of_same rfl rfl hi.cache hi.hydrations (forall_set hi.scans hok)

theorem inv_scanBegin : Inv k hash (st.step k hash (.scanBegin id)) := by
  rw [State.step]
  split_ifs
  · exact hi
  · refine hi.of_same rfl rfl hi.cache hi.hydrations (forall_set hi.scans ?_)
    refine ⟨le_rfl, fun rel f hf => ?_, ?_, ?_, ?_, ?_, ?_, ?_, ?_⟩
    · exact List.mem_map.mpr ⟨(rel, f), (st.files.mem_rows_iff rel f).mpr hf, rfl⟩
    all_goals simp [Scan.begin]

theorem inv_scanReadCache : Inv k hash (st.step k hash (.scanReadCache id)) := by
  refine hi.withScan fun s s' ho hstep => ?_
  split at hstep
  · rename_i hknown _
    cases hstep
    refine { ho with known := fun c hc => ?_, trusted := fun rel c known h hc => ?_, unread := by simp }
    · cases hc
      exact hi.cache
    · rw [ho.unread hknown rel] at hc
      cases hc
  · cases hstep

/-- The walk comes to a file: the hash recorded for what it looks like is that of its content. -/
theorem scanOk_stat {f : File} (ho : ScanOk k hash st s)
    (hread : s.known ≠ none) (hcandidate : s.candidates.get rel = none)
    (hf : st.files.get rel = some f) :
    ScanOk k hash st
      { s with candidates := s.candidates.set rel ⟨f.content.length, f.modTime, f.mode⟩ } := by
  have hobject : ∀ {h}, s.objects.get rel ≠ some h := fun hh => (ho.objects rel _ hh).1 hcandidate
  refine { ho with
    past := forall_set ho.past (hi.times rel f hf), trusted := fun rel' c known h hc hknown hh => ?_
    objects := fun rel' h hh => ⟨?_, (ho.objects rel' h hh).2⟩, recorded := fun rel' c h hc hh hlt => ?_
    unread := fun hnone => absurd hnone hread }
  · rcases get_set_cases hc with ⟨rfl, rfl⟩ | ⟨-, hc⟩
    · have hentry := ho.known known hknown _ _ (Cache.hash_eq_some hh)
      exact ⟨f.content, ho.moments _ f hf, hentry.content f hf ⟨rfl, rfl, rfl⟩⟩
    · exact ho.trusted rel' c known h hc hknown hh
  · rw [get_set]
    split_ifs
    · simp
    · exact (ho.objects rel' h hh).1
  · rcases get_set_cases hc with ⟨rfl, -⟩ | ⟨-, hc⟩
    · exact absurd hh hobject
    · exact ho.recorded rel' c h hc hh hlt

theorem inv_scanTemp : Inv k hash (st.step k hash (.scanTemp id)) := by
  refine hi.withScan fun s s' ho hstep => ?_
  split at hstep
  · split_ifs at hstep
    cases hstep
    refine { ho with temp := fun c hc rel e he => ?_ }
    cases hc
    obtain ⟨c, h, hcandidate, hobject, hlt, rfl⟩ := records_recorded s rel e he
    exact ho.recorded rel c h hcandidate hobject hlt
  · cases hstep

theorem inv_scanRename : Inv k hash (st.step k hash (.scanRename id)) := by
  rw [State.step]
  cases hget : (st.scans.get id).bind Scan.temp with
  | none => exact hi
  | some cache =>
    obtain ⟨s, hs, htemp⟩ := bind_eq_some_iff.mp hget
    exact hi.of_same rfl rfl ((hi.scans id s hs).temp cache htemp) hi.hydrations hi.scans

/-- **One step** keeps the invariant. -/
theorem Inv.step (event : Event) (hquiet : st.quiet k event = true) :
    Inv k hash (st.step k hash event) := by
  cases event with
  | advance d => exact hi.advance d
  | write rel content mode =>
    rw [State.quiet, Bool.and_eq_true, Bool.not_eq_true', Bool.not_eq_true'] at hquiet
    exact hi.put hquiet.1 hquiet.2 content mode false
  | remove =>
    rw [State.quiet, Bool.and_eq_true, Bool.not_eq_true', Bool.not_eq_true'] at hquiet
    exact hi.remove hquiet.1 hquiet.2
  | hydrateWrite => exact inv_hydrateWrite hi hquiet
  | hydrateRecord => exact inv_hydrateRecord hi
  | hydrateRead => exact inv_hydrateRead hi
  | hydrateTemp => exact inv_hydrateTemp hi
  | hydrateRename => exact inv_hydrateRename hi
  | scanBegin => exact inv_scanBegin hi
  | scanStatCache =>
    rw [State.step]
    refine hi.withScan fun s s' ho hstep => ?_
    cases hstep
    exact { ho with }
  | scanReadCache => exact inv_scanReadCache hi
  | scanStat id rel =>
    refine hi.withScan fun s s' ho hstep => ?_
    split at hstep
    · rename_i known f hknown hcandidate hf
      cases hstep
      exact scanOk_stat hi ho (by rw [hknown]; simp) hcandidate hf
    · cases hstep
  | scanHash id rel held =>
    refine hi.withScan fun s s' ho hstep => ?_
    split at hstep
    · rename_i known hknown hobject
      obtain ⟨h, hh, rfl⟩ := map_eq_some_iff.mp hstep
      exact scanOk_hash ho hknown hh
    · cases hstep
  | scanTemp => exact inv_scanTemp hi
  | scanRename => exact inv_scanRename hi

end

/-! ## Runs -/

theorem inv_start {now : Nat} (hfiles : ∀ rel f, files.get rel = some f → f.modTime ≤ k.tick now) :
    Inv k hash (State.start now files) :=
  ⟨hfiles, by simp [AllHonest, State.start, Cache.none], by simp [State.start],
    by simp [State.start]⟩

variable (k hash)

/-- **Scans see the content.** However users, hydrations and scans interleave, as long as nobody
writes a file between a hydration's writing and recording it or later in the tick of that write,
every hash a scan gets for a file is that of a content the file had since the scan began. -/
theorem scan_sees_content (now : Nat) (files : Table String File)
    (hfiles : ∀ rel f, files.get rel = some f → f.modTime ≤ k.tick now) (events : List Event)
    (hquiet : Machine.Meets (State.step k hash) (fun st event => st.quiet k event = true)
      (State.start now files) events) :
    ∀ id s rel contentHash,
      (Machine.run (State.step k hash) (State.start now files) events).scans.get id = some s →
      s.objects.get rel = some contentHash →
      ∃ content, (rel, content) ∈ s.moments ∧ hash content = contentHash := by
  have hi : Inv k hash (Machine.run (State.step k hash) (State.start now files) events) :=
    Machine.run_induction (Inv k hash) (fun st event hi hq => hi.step event hq) (inv_start hfiles) hquiet
  intro id s rel contentHash hs hobject
  exact ((hi.scans id s hs).objects rel contentHash hobject).2

/-- A clock that ticks every `clockSlack` nanoseconds. -/
def coarseClock : Clock where
  tick t := t / clockSlack * clockSlack
  mono _ _ h := Nat.mul_le_mul_right _ (Nat.div_le_div_right h)
  le t := Nat.div_mul_le_self t clockSlack
  close t := by
    have hmod := Nat.mod_lt t (by decide : 0 < clockSlack)
    have hdiv := Nat.div_add_mod' t clockSlack
    omega

/-- The hash of contents in examples: their symbols. -/
def symbols (content : Bytes) : String :=
  String.ofList (content.map fun b => Char.ofNat (b.toNat + 97))

/-- A hydration writes and records a file, the user changes it later, and a scan reads it. -/
def editedLater : List Event :=
  [.hydrateWrite 0 "f" [1] 0, .hydrateRecord 0 "f", .hydrateRead 0, .advance clockSlack,
    .hydrateTemp 0,
    .hydrateRename 0, .write "f" [2] 0, .scanBegin 1, .scanStatCache 1, .scanReadCache 1, .scanStat 1 "f",
    .scanHash 1 "f" true]

theorem scan_sees_content_editedLater :
    ∃ s, (Machine.run (State.step coarseClock symbols) (State.start 0 .empty) editedLater).scans.get 1 =
        some s ∧ s.objects.get "f" = some "c" ∧ ∃ content, ("f", content) ∈ s.moments ∧
          symbols content = "c" := by
  have hobject : ((Machine.run (State.step coarseClock symbols) (State.start 0 .empty)
      editedLater).scans.get 1).bind (fun s => s.objects.get "f") = some "c" := by decide +kernel
  obtain ⟨s, hs, hc⟩ := bind_eq_some_iff.mp hobject
  refine ⟨s, hs, hc, ?_⟩
  exact scan_sees_content coarseClock symbols 0 .empty (by simp) editedLater
    (by decide +kernel) 1 s "f" "c"
    hs hc

/-- The user changes a file before the hydration that wrote it records it. -/
def editedBefore : List Event :=
  [.hydrateWrite 0 "f" [1] 0, .write "f" [2] 0, .hydrateRecord 0 "f", .hydrateRead 0,
    .advance clockSlack,
    .hydrateTemp 0, .hydrateRename 0, .scanBegin 1, .scanStatCache 1, .scanReadCache 1, .scanStat 1 "f",
    .scanHash 1 "f" true]

/-- **The change is hidden**: the file has had the user's content since before the scan began, and
the scan returns the hash of what the hydration wrote. -/
theorem hydration_hides_change :
    ((Machine.run (State.step coarseClock symbols) (State.start 0 .empty) editedBefore).scans.get 1).map
      (fun s => (s.objects.get "f", s.moments)) = some (some (symbols [1]), [("f", [2])]) ∧
    symbols [1] ≠ symbols [2] := by
  decide +kernel

end GitSlice.StatCache
