import GitSlice.Library.LineLog
import GitSlice.LazyFS.Moves

/-! # The journal
The entries of a workspace are kept in a journal: each operation appends a record with its batch of
entries, and `Rebase`, `Switch` and some calls of `Open` put a snapshot in its place. `Open` replays
the complete records and deletes the content files no entry refers to. A write to the journal can
fail with a part of its record stored. `Open` drops such a part, so nothing is lost as long as no
record is written behind one: `commitLocked` does not look at how the journal ends. -/

namespace GitSlice.LazyFS

open List Table

/-- `record`: one line of the journal. -/
structure Record where
  snapshot : Bool
  base : String
  /-- `Set`; no entry deletes the path. -/
  set : List (Path × Option LocalEntry)
deriving DecidableEq

/-- Two records that do the same; the order in which paths are written does not count. -/
structure Record.Same (r r' : Record) : Prop where
  snapshot : r'.snapshot = r.snapshot
  base : r'.base = r.base
  set : ∀ (t : Table Path LocalEntry) p, (t.writeAll r'.set).get p = (t.writeAll r.set).get p

/-- `json.Marshal` and `json.Unmarshal` of a record, on any symbols. Names and targets are text: for
bytes that are no UTF-8 `json.Marshal` writes U+FFFD, so a name with such bytes would not be read
back. -/
abbrev Codec (β : Type) := LineCodec β Record Record.Same

/-- What `replay` does with a record: the entries and the base recorded last. -/
def Record.apply (x : Table Path LocalEntry × String) (r : Record) :
    Table Path LocalEntry × String :=
  if r.snapshot then (Table.empty.writeAll r.set, r.base) else (x.1.writeAll r.set, x.2)

/-- The entries and the base that records leave. -/
def replayed (rs : List Record) : Table Path LocalEntry × String :=
  rs.foldl Record.apply (.empty, "")

/-- The record of a batch. -/
def Plan.record (plan : Plan) : Record := ⟨false, "", plan.set⟩

/-- The record of `writeSnapshot`. -/
def FS.snapshot (s : FS) : Record :=
  ⟨true, s.base.commitID, s.entries.rows.map fun row => (row.1, some row.2)⟩

/-- How many records `Open` keeps before it writes a snapshot. -/
def compactAfter : Nat := 1000

/-- `ErrBaseMismatch`. -/
inductive OpenError where
  /-- The base the journal records is not the one that was given. -/
  | baseMismatch (recorded given : String)
deriving DecidableEq

/-- A workspace that is open, with its journal. -/
structure Workspace (β : Type) where
  /-- The layer in memory, and the content files. -/
  fs : FS
  /-- The content of the journal. -/
  journal : List β

variable {β : Type} [DecidableEq β] (k : Codec β) (c : Content)

/-- `Open`, on a journal and content files: `replay`, a snapshot where one is due, and
`collectGarbage`. -/
def openLayer (base : Manifest) (journal : List β) (files : Table Nat Bytes) (nextName : Nat) :
    Except OpenError (Workspace β) :=
  let (records, good) := k.scan journal
  let (entries, recordedBase) := replayed records
  let read : FS := ⟨base, entries, files, nextName⟩
  let fs : FS := { read with files := files.keep fun name => name ∈ read.localFiles }
  if records.length = 0 then .ok ⟨fs, k.line fs.snapshot⟩
  else if recordedBase ≠ base.commitID then .error (.baseMismatch recordedBase base.commitID)
  else if compactAfter < records.length then .ok ⟨fs, k.line fs.snapshot⟩
  else .ok ⟨fs, good⟩

/-- What an action does: a batch of entries, or a new layer. -/
inductive Effect where
  /-- Operations and `Restore`. -/
  | plan (plan : Plan)
  /-- `Rebase` and `Switch`. -/
  | layer (s : FS)

/-- What an action is going to do, or its error. -/
def FS.effect (s : FS) : Action → Except FSError Effect
  | .op op => (s.plan c op).map .plan
  | .restore p => (s.restore p).map .plan
  | .rebase newBase merge => (s.rebase c newBase merge).map fun x => .layer x.1
  | .switch newBase diff keep expect => (s.switch c newBase diff keep expect).map .layer

/-- The layer when nothing fails. -/
def FS.result (s : FS) : Effect → FS
  | .plan plan => s.perform plan
  | .layer s' => s'

namespace Workspace

variable (ws : Workspace β)

/-- A plan with `commitLocked` in it. With a fault, the first symbols of the record are stored and
the write fails: the content file that was written stays. -/
def commit (plan : Plan) (fault : Option Nat) : Workspace β :=
  if plan.set = [] then ⟨ws.fs.perform plan, ws.journal⟩
  else
    match fault with
    | none => ⟨ws.fs.perform plan, ws.journal ++ k.line plan.record⟩
    | some n => ⟨ws.fs.writeLocal plan.create, ws.journal ++ (k.encode plan.record).take n⟩

/-- `replaceLayerLocked` with `writeSnapshot` in it: the journal is replaced as a whole, or not at
all. -/
def replace (s : FS) : Option Nat → Workspace β
  | none => ⟨s, k.line s.snapshot⟩
  | some _ => ws

end Workspace

/-- What happens to a workspace. -/
inductive Event where
  /-- An action; with a fault, its write to the journal fails after some symbols. -/
  | act (a : Action) (fault : Option Nat)
  /-- The process ends in any way, and `Open` is called with the same base. -/
  | reopen

namespace Workspace

variable (ws : Workspace β)

/-- `Open` on what the workspace has left on disk, with the same base. -/
def reopened : Except OpenError (Workspace β) :=
  openLayer k ws.fs.base ws.journal ws.fs.files ws.fs.nextName

/-- One event. -/
def step : Event → Workspace β
  | .act a fault =>
    match ws.fs.effect c a with
    | .error _ => ws
    | .ok (.plan plan) => ws.commit k plan fault
    | .ok (.layer s) => ws.replace k s fault
  | .reopen =>
    match ws.reopened k with
    | .error _ => ws
    | .ok ws' => ws'

/-- The action fails because the journal does. -/
def journalFails (a : Action) (fault : Option Nat) : Bool :=
  match ws.fs.effect c a with
  | .error _ => false
  | .ok (.plan plan) => plan.set ≠ [] && fault.isSome
  | .ok (.layer _) => fault.isSome

/-- A record would be written behind the part of another that a failed write left. -/
def behindTorn : Event → Bool
  | .act a none =>
    match ws.fs.effect c a with
    | .ok (.plan plan) => plan.set ≠ [] && ws.journal.getLast? ≠ some k.newline
    | _ => false
  | _ => false

end Workspace

/-- The actions of a run that the journal did not fail, in order. -/
def carriedOut : Workspace β → List Event → List Action
  | _, [] => []
  | ws, .act a fault :: events =>
    (if ws.journalFails c a fault then [] else [a]) ++ carriedOut (ws.step k c (.act a fault)) events
  | ws, .reopen :: events => carriedOut (ws.step k c .reopen) events

/-- `Open` in an empty directory. -/
def openNew (base : Manifest) : Workspace β := ⟨.create base, k.line (FS.create base).snapshot⟩

/-- The workspace after some events, from `Open` in an empty directory. -/
def Workspace.after (base : Manifest) (events : List Event) : Workspace β :=
  Machine.run (Workspace.step k c) (openNew k base) events

/-- What an action leaves is the result of its effect. -/
theorem FS.act_eq (s : FS) (a : Action) :
    s.act c a = match s.effect c a with
      | .error _ => s
      | .ok e => s.result e := by
  cases a with
  | op op =>
    rw [act, exec, effect]
    cases s.plan c op <;> rfl
  | restore p =>
    rw [act, effect]
    cases s.restore p <;> rfl
  | rebase newBase merge =>
    rw [act, effect]
    cases s.rebase c newBase merge <;> rfl
  | switch newBase diff keep expect =>
    rw [act, effect]
    cases s.switch c newBase diff keep expect <;> rfl

/-! ## The same layer -/

/-- Two workspaces with the same layer: they can differ in content files that no entry refers to.
The names that the second gives to new content files are not in use. -/
structure SameLayer (s t : FS) : Prop where
  base : t.base = s.base
  entries : ∀ p, t.entries.get p = s.entries.get p
  files : ∀ p mode name, s.entries.get p = some (.file mode name) →
    t.files.get name = s.files.get name
  fresh : ∀ name, t.nextName ≤ name → t.files.get name = none

variable {k c} {s : FS}

/-- A workspace with the layer of a sound one is sound. -/
theorem SameLayer.sound {t : FS} (h : SameLayer s t) (hs : s.Sound) : t.Sound := by
  have hkind : ∀ p, t.kindAt p = s.kindAt p := fun p =>
    FS.kindAt_congr (R := fun _ => False) (fun _ _ hR _ => hR) h.base (fun q _ => h.entries q) not_false
  constructor
  case root => rw [h.entries, hs.root]
  case above =>
    intro p e he hw d hd hne
    rw [hkind]
    exact hs.above p e (by rw [← h.entries, he]) hw d hd hne
  case present =>
    intro p mode name he
    rw [h.entries] at he
    rw [h.files p mode name he]
    exact hs.present p mode name he
  case apart =>
    intro p q mode mode' name hp hq
    rw [h.entries] at hp hq
    exact hs.apart p q mode mode' name hp hq
  case fresh => exact h.fresh
  case normal =>
    intro p e he
    rw [h.entries] at he
    exact hs.normal p e he

/-- A content file that is written and not used leaves the layer as it is. -/
theorem sameLayer_writeLocal (hs : s.Sound) (create : Option Bytes) :
    SameLayer s (s.writeLocal create) := by
  cases create with
  | none => exact ⟨rfl, fun _ => rfl, fun _ _ _ _ => rfl, hs.fresh⟩
  | some data =>
    refine ⟨rfl, fun _ => rfl, fun p mode name he => get_set_of_ne _ _ ?_, fun name hname => ?_⟩
    · rintro rfl
      exact hs.present p mode _ he (hs.fresh _ le_rfl)
    · have hlt : s.nextName < name := hname
      exact (get_set_of_ne _ _ (Nat.ne_of_gt hlt)).trans (hs.fresh name (Nat.le_of_lt hlt))

/-- The layers that actions produce, from `Open` over a base. -/
inductive Produced (c : Content) (base : Manifest) : List Action → FS → Prop where
  /-- `Open` in an empty directory. -/
  | opened : Produced c base [] (.create base)
  | act {l : List Action} {s : FS} (h : Produced c base l s) (a : Action) :
    Produced c base (l ++ [a]) (s.act c a)
  | same {l : List Action} {s t : FS} (h : Produced c base l s) (hst : SameLayer s t) : Produced c base l t

/-! ## Replaying -/

/-- Entries and bases that are the same. -/
def SameReplay (x y : Table Path LocalEntry × String) : Prop :=
  y.2 = x.2 ∧ ∀ p, y.1.get p = x.1.get p

theorem sameReplay_apply {x y : Table Path LocalEntry × String} {r r' : Record} (h : SameReplay x y)
    (hr : r.Same r') : SameReplay (r.apply x) (r'.apply y) := by
  rw [Record.apply, Record.apply, hr.snapshot]
  split_ifs
  · exact ⟨hr.base, hr.set _⟩
  · refine ⟨h.1, fun p => ?_⟩
    rw [hr.set]
    exact get_writeAll_congr h.2 _ p

theorem sameReplay_foldl {rs rs' : List Record} (h : List.Forall₂ Record.Same rs rs')
    {x y : Table Path LocalEntry × String} (hxy : SameReplay x y) :
    SameReplay (rs.foldl Record.apply x) (rs'.foldl Record.apply y) := by
  induction h generalizing x y with
  | nil => exact hxy
  | cons hr _ ih => exact ih (sameReplay_apply hxy hr)

theorem replayed_append (rs : List Record) (r : Record) :
    replayed (rs ++ [r]) = r.apply (replayed rs) := by
  rw [replayed, foldl_append]
  rfl

theorem replayed_snapshot (s : FS) (p : Path) :
    (replayed [s.snapshot]).2 = s.base.commitID ∧
      (replayed [s.snapshot]).1.get p = s.entries.get p :=
  ⟨rfl, get_writeAll_rows s.entries p⟩

/-- The journal holds the layer: complete records that leave it, and what failed writes have
left. -/
structure Stored (k : Codec β) (ws : Workspace β) : Prop where
  sound : ws.fs.Sound
  journal : ∃ rs tail, ws.journal = k.text rs ++ tail ∧ k.newline ∉ tail ∧ rs ≠ [] ∧
    SameReplay (replayed rs) (ws.fs.entries, ws.fs.base.commitID)

omit [DecidableEq β] in
theorem stored_snapshot (s : FS) (hs : s.Sound) : Stored k ⟨s, k.line s.snapshot⟩ := by
  refine ⟨hs, [s.snapshot], [], by simp, by simp, by simp, ?_⟩
  exact ⟨rfl, fun p => (replayed_snapshot s p).2.symm⟩

variable {base : Manifest}

theorem openLayer_of_scan {journal good : List β} {rs rs' : List Record}
    (hscan : k.scan journal = (rs', good)) (hsame : List.Forall₂ Record.Same rs rs') (hne : rs ≠ [])
    (hbase : base.commitID = (replayed rs).2) (files : Table Nat Bytes) (nextName : Nat) :
    ∃ ws', openLayer k base journal files nextName = .ok ws' ∧
      ws'.fs = ⟨base, (replayed rs').1,
        files.keep fun name => name ∈ (⟨base, (replayed rs').1, files, nextName⟩ : FS).localFiles,
        nextName⟩ ∧
      (ws'.journal = good ∨ ws'.journal = k.line ws'.fs.snapshot) ∧
      ∀ p, (replayed rs').1.get p = (replayed rs).1.get p := by
  obtain ⟨hbase', hentries⟩ := sameReplay_foldl hsame (⟨rfl, fun _ => rfl⟩ :
    SameReplay (Table.empty, "") (Table.empty, ""))
  have hlen : rs'.length ≠ 0 := by
    rw [← hsame.length_eq]
    exact fun h0 => hne (length_eq_zero_iff.mp h0)
  have hrecorded : ¬ (replayed rs').2 ≠ base.commitID := not_not.mpr (hbase'.trans hbase.symm)
  rw [openLayer, hscan]
  dsimp only
  rw [if_neg hlen]
  split_ifs
  · exact ⟨_, rfl, rfl, .inr rfl, hentries⟩
  · exact ⟨_, rfl, rfl, .inl rfl, hentries⟩

variable {ws : Workspace β}
/-- **Reopening** gives the same layer, with its content files. -/
theorem Stored.reopen (h : Stored k ws) :
    ∃ ws', ws.reopened k = .ok ws' ∧ SameLayer ws.fs ws'.fs ∧ Stored k ws' := by
  obtain ⟨rs, tail, hjournal, htail, hne, hbase, hentries⟩ := h.journal
  obtain ⟨rs', hscan, hsame⟩ := k.scan_text rs htail
  rw [← hjournal] at hscan
  obtain ⟨⟨fs, journal⟩, hopen, rfl, hjournal', hread⟩ :=
    openLayer_of_scan hscan hsame hne hbase ws.fs.files ws.fs.nextName
  have hget : ∀ p, (replayed rs').1.get p = ws.fs.entries.get p := fun p =>
    (hread p).trans (hentries p).symm
  have hlayer : SameLayer ws.fs ⟨ws.fs.base, (replayed rs').1,
      ws.fs.files.keep fun name =>
        name ∈ (⟨ws.fs.base, (replayed rs').1, ws.fs.files, ws.fs.nextName⟩ : FS).localFiles,
      ws.fs.nextName⟩ := by
    refine ⟨rfl, hget, fun p mode name he => ?_, fun name hname => ?_⟩
    · have hused := FS.mem_localFiles (s := ⟨ws.fs.base, (replayed rs').1, ws.fs.files, ws.fs.nextName⟩).mpr
        ⟨p, mode, (hget p).trans he⟩
      rw [get_keep, if_pos (by simpa using hused)]
    · rw [get_keep]
      split_ifs
      · exact h.sound.fresh name hname
      · rfl
  have hsound := hlayer.sound h.sound
  refine ⟨_, hopen, hlayer, ?_⟩
  rcases hjournal' with hgood | hsnapshot
  · exact ⟨hsound, rs, [], by simpa using hgood, by simp, hne, hbase, hread⟩
  · dsimp only at hsnapshot
    rw [hsnapshot]
    exact stored_snapshot _ hsound

/-! ## One event -/

omit [DecidableEq β] in
theorem Stored.complete (h : Stored k ws) (hend : ws.journal.getLast? = some k.newline) :
    ∃ rs, ws.journal = k.text rs ∧ rs ≠ [] ∧
      SameReplay (replayed rs) (ws.fs.entries, ws.fs.base.commitID) := by
  obtain ⟨rs, tail, hjournal, htail, hne, hreplay⟩ := h.journal
  have hnil : tail = [] := by
    by_contra hne
    rw [hjournal, List.getLast?_append_of_ne_nil _ hne] at hend
    exact htail (mem_of_getLast? hend)
  exact ⟨rs, by rw [hjournal, hnil, append_nil], hne, hreplay⟩

omit [DecidableEq β] in
theorem Stored.append (h : Stored k ws) (hend : ws.journal.getLast? = some k.newline)
    {plan : Plan} (hsound : (ws.fs.perform plan).Sound) :
    Stored k ⟨ws.fs.perform plan, ws.journal ++ k.line plan.record⟩ := by
  obtain ⟨rs, hjournal, -, hbase, hentries⟩ := h.complete hend
  refine ⟨hsound, rs ++ [plan.record], [], by simp [hjournal], by simp, by simp, ?_⟩
  rw [replayed_append]
  refine ⟨?_, fun p => ?_⟩
  · show (ws.fs.perform plan).base.commitID = (replayed rs).2
    rw [FS.base_perform]
    exact hbase
  · show (ws.fs.perform plan).entries.get p = ((replayed rs).1.writeAll plan.set).get p
    rw [FS.entries_perform]
    exact get_writeAll_congr hentries _ p

omit [DecidableEq β] in
theorem Stored.torn (h : Stored k ws) (plan : Plan) (n : Nat) :
    Stored k ⟨ws.fs.writeLocal plan.create, ws.journal ++ (k.encode plan.record).take n⟩ := by
  obtain ⟨rs, tail, hjournal, htail, hne, hbase, hentries⟩ := h.journal
  have hsame := sameLayer_writeLocal h.sound plan.create
  refine ⟨hsame.sound h.sound, rs, tail ++ (k.encode plan.record).take n, by simp [hjournal], ?_,
    hne, ?_, fun p => ?_⟩
  · rw [mem_append]
    rintro (hmem | hmem)
    · exact htail hmem
    · exact k.newline_notMem _ (mem_of_mem_take hmem)
  · rw [hsame.base]
    exact hbase
  · exact (hsame.entries p).trans (hentries p)

omit [DecidableEq β] in
theorem Stored.perform (h : Stored k ws) {plan : Plan} (hset : plan.set = [])
    (hsound : (ws.fs.perform plan).Sound) : Stored k ⟨ws.fs.perform plan, ws.journal⟩ := by
  obtain ⟨rs, tail, hjournal, htail, hne, hbase, hentries⟩ := h.journal
  refine ⟨hsound, rs, tail, hjournal, htail, hne, ?_, fun p => ?_⟩
  · rw [FS.base_perform]
    exact hbase
  · show (ws.fs.perform plan).entries.get p = (replayed rs).1.get p
    rw [FS.entries_perform, hset]
    exact hentries p

/-- **One event** keeps the journal in step with the layer, and the layer is what the action makes
of it unless the journal failed it. -/
theorem Stored.step (h : Stored k ws) {a : Action} {fault : Option Nat}
    (hok : ws.behindTorn k c (.act a fault) = false) :
    Stored k (ws.step k c (.act a fault)) ∧
      if ws.journalFails c a fault = true then SameLayer ws.fs (ws.step k c (.act a fault)).fs
      else (ws.step k c (.act a fault)).fs = ws.fs.act c a := by
  have hact : (ws.fs.act c a).Sound := FS.sound_act h.sound a
  rw [FS.act_eq] at hact ⊢
  rw [Workspace.step, Workspace.journalFails]
  cases heffect : ws.fs.effect c a with
  | error => exact ⟨h, by simp⟩
  | ok effect =>
    rw [heffect] at hact
    cases effect with
    | plan plan =>
      dsimp only [FS.result] at hact ⊢
      unfold Workspace.commit
      by_cases hset : plan.set = []
      · rw [if_pos hset]
        exact ⟨h.perform hset hact, by simp [hset]⟩
      · rw [if_neg hset]
        cases fault with
        | none =>
          have hend : ws.journal.getLast? = some k.newline := by
            rw [Workspace.behindTorn, heffect] at hok
            simpa [hset] using hok
          exact ⟨h.append hend hact, by simp⟩
        | some n => exact ⟨h.torn plan n, by simpa [hset] using sameLayer_writeLocal h.sound plan.create⟩
    | layer s =>
      cases fault with
      | none => exact ⟨stored_snapshot s hact, by simp [Workspace.replace, FS.result]⟩
      | some n => exact ⟨h, by simpa [Workspace.replace] using ⟨rfl, fun _ => rfl, fun _ _ _ _ => rfl, h.sound.fresh⟩⟩

/-! ## Runs -/

/-- **A run** in which no record is written behind a part of another keeps the journal in step with
the layer. -/
theorem stored_run {l : List Action} {events : List Event} (h : Stored k ws)
    (hl : Produced c base l ws.fs)
    (hmeets : Machine.Meets (Workspace.step k c) (fun ws e => ws.behindTorn k c e = false) ws events) :
    Stored k (Machine.run (Workspace.step k c) ws events) ∧
      Produced c base (l ++ carriedOut k c ws events) (Machine.run (Workspace.step k c) ws events).fs := by
  induction events generalizing ws l with
  | nil => simpa [carriedOut] using And.intro h hl
  | cons e events ih =>
    obtain ⟨hok, hrest⟩ := hmeets
    rw [Machine.run_cons]
    cases e with
    | act a fault =>
      obtain ⟨hstored, hlayer⟩ := h.step hok
      rw [carriedOut]
      by_cases hfails : ws.journalFails c a fault = true
      · rw [if_pos hfails] at hlayer ⊢
        exact ih hstored (hl.same hlayer) hrest
      · rw [if_neg hfails] at hlayer ⊢
        rw [← append_assoc]
        exact ih hstored (hlayer ▸ hl.act a) hrest
    | reopen =>
      obtain ⟨ws', hopen, hlayer, hstored⟩ := h.reopen
      have hstep : ws.step k c .reopen = ws' := by rw [Workspace.step, hopen]
      rw [carriedOut, hstep]
      rw [hstep] at hrest
      exact ih hstored (hl.same hlayer) hrest

variable (k c)

/-- **The journal is durable.** Take any actions on a workspace, with writes to the journal that
fail after any part of their record, and any number of reopenings. If no record is written behind a
part of another, then `Open` over the same base succeeds and gives the layer that the actions the
journal did not fail produce, in order, with every content file its entries refer to. -/
theorem journal_durable (base : Manifest) (events : List Event)
    (hmeets : Machine.Meets (Workspace.step k c) (fun ws e => ws.behindTorn k c e = false) (openNew k base)
      events) :
    ∃ ws', (Workspace.after k c base events).reopened k = .ok ws' ∧
      Produced c base (carriedOut k c (openNew k base) events) ws'.fs ∧
      ∀ p mode name, ws'.fs.entries.get p = some (.file mode name) →
        ws'.fs.files.get name ≠ none := by
  obtain ⟨hstored, hproduced⟩ :=
    stored_run (stored_snapshot _ (FS.sound_create base)) Produced.opened hmeets
  obtain ⟨ws', hopen, hlayer, hstored'⟩ := hstored.reopen
  exact ⟨ws', hopen, hproduced.same hlayer, hstored'.sound.present⟩

/-- One half of a record, or the end of a line. -/
inductive Cell where
  /-- The end of a line. -/
  | newline
  /-- The first or the second half of a record. -/
  | half (second : Bool) (r : Record)
deriving DecidableEq

/-- Records as two cells: the coarsest codec that lets a write stop half way. -/
def halves : Codec Cell where
  newline := .newline
  encode r := [.half false r, .half true r]
  decode
    | [.half false r, .half true r'] => if r = r' then some r else none
    | _ => none
  newline_notMem r := by simp
  decode_encode r := ⟨r, by simp, rfl, rfl, fun _ _ => rfl⟩
  decode_torn r r' x hx hne := by
    rcases x with _ | ⟨a, _ | ⟨b, l⟩⟩
    · exact absurd rfl hne
    · have ha : a = .half false r := (List.cons_prefix_cons.mp hx).1
      subst ha
      rfl
    · have ha : a = .half false r := (List.cons_prefix_cons.mp hx).1
      have hb : b = .half true r := (List.cons_prefix_cons.mp (List.cons_prefix_cons.mp hx).2).1
      subst ha hb
      cases l <;> rfl

/-- A directory whose record was torn is not there, one that was made after `Open` is. -/
theorem journal_durable_reopenedAfterFault :
    ∃ ws', (Workspace.after halves FS.emptyContent (.empty "c1")
        [.act (.op (.writeFile ["a"] [1] 0)) none, .act (.op (.mkdir ["b"])) (some 1), .reopen,
          .act (.op (.mkdir ["d"])) none]).reopened halves = .ok ws' ∧
      Produced FS.emptyContent (.empty "c1") [.op (.writeFile ["a"] [1] 0), .op (.mkdir ["d"])] ws'.fs := by
  obtain ⟨ws', hopen, hproduced, -⟩ := journal_durable halves FS.emptyContent (.empty "c1")
    [.act (.op (.writeFile ["a"] [1] 0)) none, .act (.op (.mkdir ["b"])) (some 1), .reopen,
      .act (.op (.mkdir ["d"])) none] (by decide +kernel)
  exact ⟨ws', hopen, hproduced⟩

/-- **A record written behind a part of another is lost.** With any codec, an operation that fails
with a part of its record stored leaves the workspace open; the next operation writes its record and
succeeds, and `Open` gives the entries from before both; a content file that the second operation
deleted stays deleted. -/
theorem lost_behind_torn (h : Stored k ws) (hend : ws.journal.getLast? = some k.newline)
    {plan plan' : Plan} {n : Nat} (hset : plan.set ≠ []) (hset' : plan'.set ≠ [])
    (hpart : (k.encode plan.record).take n ≠ []) :
    ∃ ws', ((ws.commit k plan (some n)).commit k plan' none).reopened k = .ok ws' ∧
      ∀ p, ws'.fs.entries.get p = ws.fs.entries.get p := by
  obtain ⟨rs, hjournal, hne, hbase, hentries⟩ := h.complete hend
  have hcommit : (ws.commit k plan (some n)).commit k plan' none =
      ⟨(ws.fs.writeLocal plan.create).perform plan',
        k.text rs ++ ((k.encode plan.record).take n ++ k.line plan'.record ++ [])⟩ := by
    simp [Workspace.commit, hset, hset', hjournal]
  have hfsbase : ((ws.fs.writeLocal plan.create).perform plan').base = ws.fs.base := by
    rw [FS.base_perform]
    exact (sameLayer_writeLocal h.sound plan.create).base
  have htaken := take_prefix n (k.encode plan.record)
  obtain ⟨rs', hscan, hsame⟩ := k.scan_torn rs htaken hpart []
  obtain ⟨ws', hopen, hfs, -, hread⟩ := openLayer_of_scan hscan hsame hne hbase
    ((ws.fs.writeLocal plan.create).perform plan').files
    ((ws.fs.writeLocal plan.create).perform plan').nextName
  refine ⟨ws', ?_, fun p => ?_⟩
  · rw [hcommit, Workspace.reopened, hfsbase]
    exact hopen
  · rw [hfs]
    exact (hread p).trans (hentries p).symm

/-- A directory made behind the half of another. -/
theorem lost_behind_torn_dir :
    let plan : Plan := { set := [(["a"], some (.dir false))] }
    ∃ ws, (((openNew halves (.empty "")).commit halves plan (some 1)).commit halves plan none).reopened halves =
      .ok ws ∧ ∀ p, ws.fs.entries.get p = none :=
  lost_behind_torn halves (stored_snapshot _ (FS.sound_create _)) rfl nofun nofun nofun

/-- A directory that `Mkdir` made and returned success for is gone after a reopening: the record of
an earlier `Mkdir` was cut short. -/
theorem mkdir_lost_behind_torn : carriedOut halves FS.emptyContent (openNew halves (.empty "c1"))
      [.act (.op (.mkdir ["a"])) (some 1), .act (.op (.mkdir ["b"])) none] = [.op (.mkdir ["b"])] ∧
    (Workspace.after halves FS.emptyContent (.empty "c1")
      [.act (.op (.mkdir ["a"])) (some 1), .act (.op (.mkdir ["b"])) none]).fs.kindAt ["b"] = some .dir ∧
    ((Workspace.after halves FS.emptyContent (.empty "c1")
      [.act (.op (.mkdir ["a"])) (some 1), .act (.op (.mkdir ["b"])) none]).reopened halves).toOption.map
        (fun ws => ws.fs.kindAt ["b"]) = some none := by
  refine ⟨rfl, by decide +kernel, by decide +kernel⟩

end GitSlice.LazyFS
