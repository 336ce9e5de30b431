import Mathlib.Data.List.Forall2

/-! # Logs of lines
A log is a file to which records are appended, each as a line; a write that fails can leave the
beginning of its line. Reading a log takes complete lines as long as they can be decoded
(`LineCodec.scan`). What was written completely is read back, whatever is left of one more line
behind it (`LineCodec.scan_text`); a line written behind such a rest is lost, with all that follows
(`LineCodec.scan_torn`). -/

namespace GitSlice

open List

variable {β ρ : Type*}

/-- How records are written as lines. A record is read back up to `same`. -/
structure LineCodec (β ρ : Type*) (same : ρ → ρ → Prop) where
  /-- The symbol that ends a line. -/
  newline : β
  /-- A record as a line, without its end. -/
  encode : ρ → List β
  /-- The record a line holds. -/
  decode : List β → Option ρ
  /-- A record has no line end in it. -/
  newline_notMem : ∀ r, newline ∉ encode r
  /-- A record is read back. -/
  decode_encode : ∀ r, ∃ r', decode (encode r) = some r' ∧ same r r'
  /-- The beginning of a record with another one behind it is no record. -/
  decode_torn : ∀ r r' x, x <+: encode r → x ≠ [] → decode (x ++ encode r') = none

/-- The complete lines of a file, after the beginning `cur` of the first one. -/
def completeLines [DecidableEq β] (newline : β) : List β → List β → List (List β)
  | _, [] => []
  | cur, b :: rest =>
    if b = newline then cur :: completeLines newline [] rest else completeLines newline (cur ++ [b]) rest

variable {newline : β}

theorem completeLines_line [DecidableEq β] {l : List β} (hl : newline ∉ l) (cur rest : List β) :
    completeLines newline cur (l ++ newline :: rest) =
      (cur ++ l) :: completeLines newline [] rest := by
  induction l generalizing cur with
  | nil => simp [completeLines]
  | cons b l ih =>
    have hb : b ≠ newline := fun h => hl (h ▸ mem_cons_self)
    rw [cons_append, completeLines, if_neg hb, ih fun h => hl (mem_cons_of_mem b h)]
    simp

variable {tail : List β}

theorem completeLines_tail [DecidableEq β] (htail : newline ∉ tail) (cur : List β) :
    completeLines newline cur tail = [] := by
  induction tail generalizing cur with
  | nil => rfl
  | cons b tail ih =>
    have hb : b ≠ newline := fun h => htail (h ▸ mem_cons_self)
    rw [completeLines, if_neg hb, ih fun h => htail (mem_cons_of_mem b h)]

namespace LineCodec

variable {same : ρ → ρ → Prop} (k : LineCodec β ρ same)

/-- A record as a line. -/
def line (r : ρ) : List β := k.encode r ++ [k.newline]

/-- Records as lines. -/
def text (rs : List ρ) : List β := rs.flatMap k.line

@[simp] theorem text_append (rs rs' : List ρ) : k.text (rs ++ rs') = k.text rs ++ k.text rs' :=
  flatMap_append

@[simp] theorem text_singleton (r : ρ) : k.text [r] = k.line r := by simp [text]

/-- The records of the lines, up to the first line that is none. -/
def readLines : List (List β) → List (List β × ρ)
  | [] => []
  | l :: ls =>
    match k.decode l with
    | none => []
    | some r => (l, r) :: readLines ls

/-- Read a log: its records, and the text of the lines they were read from. -/
def scan [DecidableEq β] (data : List β) : List ρ × List β :=
  let found := k.readLines (completeLines k.newline [] data)
  (found.map Prod.snd, found.flatMap fun x => x.1 ++ [k.newline])

variable [DecidableEq β] (rs : List ρ)

theorem readLines_text (rest : List β) :
    ∃ rs', List.Forall₂ same rs rs' ∧ k.readLines (completeLines k.newline [] (k.text rs ++ rest)) =
      (rs.map k.encode).zip rs' ++ k.readLines (completeLines k.newline [] rest) := by
  induction rs with
  | nil => exact ⟨[], .nil, rfl⟩
  | cons r rs ih =>
    obtain ⟨rs', hsame, hread⟩ := ih
    obtain ⟨r', hdecode, hr⟩ := k.decode_encode r
    refine ⟨r' :: rs', .cons hr hsame, ?_⟩
    have hsplit : k.text (r :: rs) ++ rest = k.encode r ++ k.newline :: (k.text rs ++ rest) := by
      simp [text, line]
    rw [hsplit, completeLines_line (k.newline_notMem r), nil_append, readLines, hdecode]
    simp [hread]

/-- **What stands before a rest that holds no record** is what is read. -/
theorem scan_append {rest : List β} (hrest : k.readLines (completeLines k.newline [] rest) = []) :
    ∃ rs', k.scan (k.text rs ++ rest) = (rs', k.text rs) ∧ List.Forall₂ same rs rs' := by
  obtain ⟨rs', hsame, hread⟩ := k.readLines_text rs rest
  have hlen : rs.length = rs'.length := hsame.length_eq
  refine ⟨rs', ?_, hsame⟩
  rw [scan, hread, hrest, append_nil]
  refine Prod.ext ?_ ?_
  · exact map_snd_zip (by simp [hlen])
  · have hfst : ((rs.map k.encode).zip rs').map Prod.fst = rs.map k.encode :=
      map_fst_zip (by simp [hlen])
    have htext : ((rs.map k.encode).zip rs').flatMap (fun x => x.1 ++ [k.newline]) =
        (((rs.map k.encode).zip rs').map Prod.fst).flatMap fun l => l ++ [k.newline] := by
      rw [flatMap_map]
    rw [htext, hfst, flatMap_map]
    rfl

/-- **A log reads back** with the beginning of one more line behind it. -/
theorem scan_text (htail : k.newline ∉ tail) :
    ∃ rs', k.scan (k.text rs ++ tail) = (rs', k.text rs) ∧ List.Forall₂ same rs rs' :=
  k.scan_append rs (by rw [completeLines_tail htail]; rfl)

/-- **A line behind the beginning of another is lost**, with all that follows. -/
theorem scan_torn {torn r : ρ} {x : List β} (hx : x <+: k.encode torn) (hne : x ≠ [])
    (rest : List β) :
    ∃ rs', k.scan (k.text rs ++ (x ++ k.line r ++ rest)) = (rs', k.text rs) ∧
      List.Forall₂ same rs rs' := by
  have hnot : k.newline ∉ x ++ k.encode r := by
    rw [mem_append]
    rintro (h | h)
    · exact k.newline_notMem torn (hx.subset h)
    · exact k.newline_notMem r h
  refine k.scan_append rs ?_
  have hsplit : x ++ k.line r ++ rest = (x ++ k.encode r) ++ k.newline :: rest := by simp [line]
  rw [hsplit, completeLines_line hnot, nil_append, readLines, k.decode_torn torn r x hx hne]

end LineCodec

end GitSlice
