import GitSlice.Store.Publish

/-! # Fanning out webhook events
`internal/webhooks/dispatcher.go` from a stored event to the bodies of its deliveries: `loadContext`
reads what the event refers to, once, and `fanOut` makes the deliveries of each hook from it. A
landed commit is also a push for the hooks of every slice it touches, whichever slice authored it,
and for those the context is narrowed.

`push_bodies_independent` compares two runs that differ in the changesets and in the paths changed
outside a slice: what the hooks of that slice are sent is the same. -/

namespace GitSlice

open Option

namespace Webhooks

/-! ## What is stored -/

/-- The kinds of events. -/
inductive EventKind where
  | ping
  | push
  | tagCreated
  | changesetCreated
  | changesetUpdated
  | changesetApproved
  | changesetSubmitted
  | changesetAbandoned
  | checkRunCompleted
deriving DecidableEq

/-- A subscription of a slice. -/
structure Webhook where
  (id sliceId url : String)
  /-- The kinds it subscribes to; nothing stands for `*`. -/
  events : List (Option EventKind)

/-- An event: references, read when the payload is built. -/
structure WebhookEvent where
  kind : EventKind
  (id sliceId actorSubjectId changesetId patchsetId commitId targetRef tagName checkRunId data : String)
  changedPaths : List Path
  createdAt : Option Time

/-- The name of a slice. -/
structure SliceRef where
  (account slice : String)

/-- `corev1.Slice`. -/
structure Slice where
  id : SliceID
  ref : Option SliceRef
  /-- The included paths of the definition, when there is one. -/
  includedPaths : Option (List Path)

/-- `corev1.Changeset`. -/
structure Changeset where
  (id title description status author targetRef currentPatchsetId commitId : String)
  (number currentPatchsetNumber : Nat)
  /-- The patchsets with their numbers. -/
  patchsets : List (PatchsetID × Nat)
  authoringSlice : Option SliceRef

/-- `corev1.CheckRun`. -/
structure CheckRun where
  (id checkName status summary patchsetId : String)
  exitCode : Int

/-- The stores as the dispatcher reads them; a read that fails gives nothing. -/
structure Stores where
  changeset : ChangesetID → Option Changeset
  slice : SliceID → Option Slice
  resolve : SliceRef → Option Slice
  checkRun : String → Option CheckRun
  /-- The personal account of a subject. -/
  account : Subject → Option String
  /-- Whether the accounts can be read. -/
  authFails : Bool
  slice_id : ∀ id s, slice id = some s → s.id = id

/-- Empty for a subject without an account. -/
def Stores.usernamesForSubjects (st : Stores) (subjects : List Subject) (s : Subject) : String :=
  let ids := (subjects.map trimSpace).filter fun id => id ≠ ""
  if st.authFails = false ∧ s ∈ ids then (st.account s).getD "" else ""

/-! ## Payloads -/

/-- The slice in a body. -/
structure PayloadSlice where
  (id account name fullName url : String)

/-- The hook in a body. -/
structure PayloadHook where
  (id url : String)
  events : List (Option EventKind)

/-- The tag in a body. -/
structure PayloadTag where
  (name commitId message : String)

/-- The changeset in a body. -/
structure PayloadChangeset where
  (id handle title status author targetRef patchsetId commitId url : String)
  (number patchsetNumber : Nat)

/-- The commit in a body. -/
structure PayloadCommit where
  (id targetRef : String)
  changedPaths : List Path

/-- The body of a delivery, before it is encoded. -/
structure Payload where
  event : EventKind
  (id createdAt : String)
  slice : Option PayloadSlice
  /-- The user name of the sender. -/
  sender : Option String
  hook : Option PayloadHook
  tag : Option PayloadTag
  changeset : Option PayloadChangeset
  commit : Option PayloadCommit
  checkRun : Option CheckRun

/-- A row to be sent. -/
structure Delivery where
  event : EventKind
  (webhookId eventId requestBody : String)
  nextAttemptAt : Time

/-- `eventContext`. -/
structure EventContext where
  slice : Option Slice
  changeset : Option Changeset
  checkRun : Option CheckRun
  names : Subject → String

/-- The dispatcher: its option `WebBaseURL`, the clock, and the library functions it calls. -/
structure Dispatcher where
  webBaseURL : String
  now : Time
  formatTime : Time → String
  pathEscape : String → String
  /-- A field of the event's data, empty when it is not there. -/
  unmarshal : String → String → String
  marshal : Payload → Option String

variable (d : Dispatcher) (st : Stores)

/-- The slice with its address. -/
def Dispatcher.payloadSlice (slice : Slice) : PayloadSlice :=
  match slice.ref with
  | none => ⟨slice.id, "", "", "", ""⟩
  | some ref =>
    ⟨slice.id, ref.account, ref.slice, ref.account ++ "/" ++ ref.slice,
      if d.webBaseURL = "" then ""
      else d.webBaseURL ++ "/slices/" ++ d.pathEscape ref.account ++ "/" ++ d.pathEscape ref.slice⟩

/-- The first text, unless it is empty. -/
def firstNonEmpty (a b : String) : String := if a = "" then b else a

/-- The changeset of a payload. -/
def Dispatcher.payloadChangeset (event : WebhookEvent) (ec : EventContext) (cs : Changeset) :
    PayloadChangeset :=
  let handle := shortChangesetID cs.id
  let patchsetId := firstNonEmpty event.patchsetId cs.currentPatchsetId
  { id := cs.id
    handle
    number := cs.number
    title := cs.title
    status := cs.status
    author := firstNonEmpty (ec.names cs.author) cs.author
    targetRef := cs.targetRef
    patchsetId
    patchsetNumber := cs.patchsets.foldl (fun n ps => if ps.1 = patchsetId then ps.2 else n)
      cs.currentPatchsetNumber
    commitId := cs.commitId
    url := if d.webBaseURL = "" then "" else d.webBaseURL ++ "/cs/" ++ handle }

/-- The body for a hook. -/
def Dispatcher.payload (event : WebhookEvent) (ec : EventContext) (hook : Option Webhook) :
    Payload where
  id := event.id
  event := event.kind
  createdAt := d.formatTime (event.createdAt.getD d.now)
  slice := ec.slice.map d.payloadSlice
  sender := if ec.names event.actorSubjectId = "" then none else some (ec.names event.actorSubjectId)
  hook := hook.map fun h => ⟨h.id, h.url, h.events⟩
  tag :=
    if event.tagName = "" then none
    else some ⟨event.tagName, event.commitId, d.unmarshal event.data "message"⟩
  changeset := ec.changeset.map (d.payloadChangeset event ec)
  commit :=
    if event.kind = .changesetSubmitted ∨ event.kind = .push then
      some ⟨event.commitId, event.targetRef, event.changedPaths⟩
    else none
  checkRun :=
    if event.kind = .checkRunCompleted then
      some (ec.checkRun.getD ⟨"", d.unmarshal event.data "name", d.unmarshal event.data "status", "",
        event.patchsetId, 0⟩)
    else none

/-! ## Fan-out -/

/-- The hook asks for the event, or for all. -/
def subscribes (hook : Webhook) (kind : EventKind) : Bool :=
  hook.events.any fun e => e = some kind ∨ e = none

/-- The slice an event belongs to. -/
def eventSlice (event : WebhookEvent) (changeset : Option Changeset) : Option (Option Slice) :=
  if event.sliceId ≠ "" then (st.slice event.sliceId).map some
  else
    match changeset.bind Changeset.authoringSlice with
    | some ref => (st.resolve ref).map some
    | none => some none

/-- `loadContext`, or nothing when a read fails. -/
def loadContext (event : WebhookEvent) : Option EventContext := do
  let changeset ← if event.changesetId = "" then some none else (st.changeset event.changesetId).map some
  let slice ← eventSlice st event changeset
  let author := (changeset.map Changeset.author).getD ""
  return {
    slice, changeset
    checkRun := if event.checkRunId = "" then none else st.checkRun event.checkRunId
    names := st.usernamesForSubjects ([event.actorSubjectId, author].filter fun s => s ≠ "") }

/-- A delivery of an event to a hook. -/
def Dispatcher.delivery (event : WebhookEvent) (ec : EventContext) (hook : Webhook) :
    Option Delivery :=
  (d.marshal (d.payload event ec none)).map fun body => ⟨event.kind, hook.id, event.id, body, d.now⟩

/-- The part of the loop over the hooks that makes the push of a landed commit. -/
def Dispatcher.pushDelivery (event : WebhookEvent) (ec : EventContext) (hook : Webhook) :
    Option Delivery := do
  let hookSlice ← st.slice hook.sliceId
  let included ← hookSlice.includedPaths
  let touched := event.changedPaths.filter (inAnyPrefix included)
  guard (touched ≠ [])
  let push := { event with kind := .push, id := event.id ++ ".push", changedPaths := touched }
  let changeset := if ec.slice.map Slice.id = some hookSlice.id then ec.changeset else none
  d.delivery push { ec with slice := some hookSlice, changeset } hook

/-- What the hooks that ask for the event, or for its push, get. -/
def Dispatcher.fanOut (event : WebhookEvent) (ec : EventContext) (hooks : List Webhook) :
    List Delivery :=
  hooks.flatMap fun hook =>
    (if ec.slice.map Slice.id = some hook.sliceId ∧ subscribes hook event.kind then
      (d.delivery event ec hook).toList
    else []) ++
    if event.kind = .changesetSubmitted ∧ subscribes hook .push then
      (d.pushDelivery st event ec hook).toList
    else []

/-- What `DrainOnce` delivers of an event. -/
def Dispatcher.deliveries (event : WebhookEvent) (hooks : List Webhook) : List Delivery :=
  match loadContext st event with
  | some ec => d.fanOut st event ec hooks
  | none => []

/-! ## What the hooks of a slice learn -/

variable {d st}

theorem mem_usernames {actor author : Subject} :
    actor ∈ ((([actor, author].filter fun s => s ≠ "").map trimSpace).filter fun id => id ≠ "") ↔
      trimSpace actor = actor ∧ actor ≠ "" := by
  constructor
  · intro h
    obtain ⟨hmem, hne⟩ := List.mem_filter.mp h
    obtain ⟨s, -, hs⟩ := List.mem_map.mp hmem
    exact ⟨by rw [← hs, trimSpace_trimSpace], of_decide_eq_true hne⟩
  · rintro ⟨htrim, hne⟩
    exact List.mem_filter.mpr ⟨List.mem_map.mpr ⟨actor, by simp [hne], htrim⟩, decide_eq_true hne⟩

section

variable (event : WebhookEvent) {changeset : ChangesetID → Option Changeset} (paths : List Path)

/-- The slice and the sender of the context do not depend on the changesets, other than on where
they were authored, nor on the changed paths. -/
theorem loadContext_agree (h : ∀ id, (changeset id).map Changeset.authoringSlice =
      (st.changeset id).map Changeset.authoringSlice) :
    (loadContext { st with changeset } { event with changedPaths := paths }).map
        (fun ec => (ec.slice, ec.names event.actorSubjectId)) =
      (loadContext st event).map fun ec => (ec.slice, ec.names event.actorSubjectId) := by
  by_cases hid : event.changesetId = ""
  · simp only [loadContext, if_pos hid]
    rfl
  have hcs := h event.changesetId
  simp only [loadContext, if_neg hid]
  cases hold : st.changeset event.changesetId with
  | none =>
    rw [hold, map_none, map_eq_none_iff] at hcs
    rw [hcs]
    rfl
  | some cs =>
    rw [hold] at hcs
    obtain ⟨cs', hnew, hsame⟩ := map_eq_some_iff.mp hcs
    have hslice : eventSlice { st with changeset } { event with changedPaths := paths } (some cs') =
        eventSlice st event (some cs) := by
      simp only [eventSlice, bind_some, hsame]
    rw [hnew]
    simp only [map_some, bind_eq_bind, bind_some, hslice]
    cases eventSlice st event (some cs) with
    | none => rfl
    | some slice =>
      simp only [bind_some, pure_def, map_some, Stores.usernamesForSubjects,
        mem_usernames]

/-- Nor does what a hook of another slice is sent. -/
theorem pushDelivery_agree {ec ec' : EventContext} (hslice : ec'.slice = ec.slice)
    (hnames : ec'.names event.actorSubjectId = ec.names event.actorSubjectId) {hook : Webhook}
    (hother : ec.slice.map Slice.id ≠ some hook.sliceId)
    (hpaths : ∀ slice included, st.slice hook.sliceId = some slice →
      slice.includedPaths = some included →
      paths.filter (inAnyPrefix included) = event.changedPaths.filter (inAnyPrefix included)) :
    d.pushDelivery { st with changeset } { event with changedPaths := paths } ec' hook =
      d.pushDelivery st event ec hook := by
  simp only [Dispatcher.pushDelivery, hslice]
  cases hget : st.slice hook.sliceId with
  | none => rfl
  | some slice =>
    have hid := st.slice_id _ _ hget
    simp only [bind_eq_bind, bind_some]
    cases hincl : slice.includedPaths with
    | none => rfl
    | some included =>
      -- the changeset is dropped, and a push has no check run
      simp only [bind_some, hpaths slice included hget hincl, hid, if_neg hother,
        Dispatcher.delivery, Dispatcher.payload, hnames, map_none, reduceCtorEq, if_false]

end

/-- **Push webhooks do not leak other slices**: two runs that differ in the changesets, though not
in where they were authored, and in the changed paths outside of a slice, which is not the one the
event belongs to, send the hooks of that slice the same. -/
theorem push_bodies_independent (d : Dispatcher) (st : Stores) (event : WebhookEvent)
    (hooks : List Webhook) (slice : SliceID) (changeset : ChangesetID → Option Changeset)
    (paths : List Path)
    (hauthored : ∀ id, (changeset id).map Changeset.authoringSlice =
      (st.changeset id).map Changeset.authoringSlice)
    (helsewhere : ∀ ec, loadContext st event = some ec → ec.slice.map Slice.id ≠ some slice)
    (hpaths : ∀ b included, st.slice slice = some b → b.includedPaths = some included →
      paths.filter (inAnyPrefix included) = event.changedPaths.filter (inAnyPrefix included)) :
    d.deliveries { st with changeset } { event with changedPaths := paths }
        (hooks.filter fun h => h.sliceId = slice) =
      d.deliveries st event (hooks.filter fun h => h.sliceId = slice) := by
  have hagree := loadContext_agree event paths hauthored
  rw [Dispatcher.deliveries, Dispatcher.deliveries]
  cases hec : loadContext st event with
  | none =>
    rw [hec, map_none, map_eq_none_iff] at hagree
    rw [hagree]
  | some ec =>
    rw [hec] at hagree
    obtain ⟨ec', hec', heq⟩ := map_eq_some_iff.mp hagree
    obtain ⟨hslice, hnames⟩ := Prod.mk.inj heq
    rw [hec']
    refine List.flatMap_congr fun hook hmem => ?_
    obtain rfl : hook.sliceId = slice := of_decide_eq_true (List.mem_filter.mp hmem).2
    have hother := helsewhere ec hec
    have hother' : ec'.slice.map Slice.id ≠ some hook.sliceId := hslice ▸ hother
    simp only [if_neg (not_and_of_not_left _ hother), if_neg (not_and_of_not_left _ hother'),
      pushDelivery_agree event paths hslice hnames hother hpaths]

/-- Every field of a payload, as texts. -/
def Payload.texts (p : Payload) : List String :=
  let kind (e : EventKind) := toString e.ctorIdx
  [kind p.event, p.id, p.createdAt] ++
    p.slice.elim ["-"] (fun s => [s.id, s.account, s.name, s.fullName, s.url]) ++
      [p.sender.getD "-"] ++
    p.hook.elim ["-"] (fun h => h.id :: h.url :: h.events.map fun e => e.elim "*" kind) ++
    p.tag.elim ["-"] (fun t => [t.name, t.commitId, t.message]) ++
    p.changeset.elim ["-"] (fun c => [c.id, c.handle, c.title, c.status, c.author, c.targetRef, c.patchsetId,
      c.commitId, c.url, toString c.number, toString c.patchsetNumber]) ++
    p.commit.elim ["-"] (fun c => c.id :: c.targetRef :: c.changedPaths.map renderPath) ++
    p.checkRun.elim ["-"] fun r => [r.id, r.checkName, r.status, r.summary, r.patchsetId,
      toString r.exitCode]

/-- A dispatcher that encodes a payload as the list of its texts. -/
def plainText : Dispatcher where
  webBaseURL := ""
  now := 0
  formatTime := fun _ => ""
  pathEscape := id
  unmarshal := fun _ _ => ""
  marshal := fun p => some (String.intercalate "," p.texts)

/-- A changeset of the slice `lib`. -/
def libChangeset (title : String) : ChangesetID → Option Changeset := fun id =>
  some ⟨id, title, "", "submitted", "ann", "main", "ps_1", "c_1", 1, 1, [], some ⟨"acme", "lib"⟩⟩

/-- Two slices, `lib` and `site`. -/
def libAndSite : Stores where
  changeset := libChangeset "one"
  slice := fun id => some ⟨id, none, some [[id]]⟩
  resolve := fun ref => some ⟨ref.slice, none, some [[ref.slice]]⟩
  checkRun := fun _ => none
  account := fun _ => none
  authFails := false
  slice_id := fun _ _ h => by cases h; rfl

/-- Its commit, which touches both. -/
def landed (paths : List Path) : WebhookEvent :=
  ⟨.changesetSubmitted, "evt_1", "", "", "cs_1", "ps_1", "c_1", "main", "", "", "", paths, none⟩

theorem push_bodies_independent_libAndSite :
    (plainText.deliveries libAndSite (landed [["site", "a"], ["lib", "b"]])
      [⟨"hook_1", "site", "", [none]⟩]).map Delivery.requestBody =
        ["1,evt_1.push,,site,,,,,-,-,-,-,c_1,main,/site/a,-"] ∧
      plainText.deliveries { libAndSite with changeset := libChangeset "two" }
          (landed [["lib", "c"], ["site", "a"]]) [⟨"hook_1", "site", "", [none]⟩] =
        plainText.deliveries libAndSite (landed [["site", "a"], ["lib", "b"]])
          [⟨"hook_1", "site", "", [none]⟩] :=
  ⟨by decide +kernel, push_bodies_independent plainText libAndSite (landed [["site", "a"], ["lib", "b"]])
    [⟨"hook_1", "site", "", [none]⟩] "site" (libChangeset "two") [["lib", "c"], ["site", "a"]]
    (fun _ => rfl) (fun _ h => by cases h; decide) (fun _ _ h h' => by cases h; cases h'; decide)⟩

end Webhooks

end GitSlice
