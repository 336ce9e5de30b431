import Mathlib.Tactic.Linarith
import Mathlib.Algebra.Order.Field.Rat
import GitSlice.Library.Table

/-! # The rate limiter
A `Limiter` keeps one token bucket for each key, refills it from the time between two calls, and
drops the buckets not used for `ttl`. `Allow` reads the clock before it takes the lock, so a run is
the list of the calls in the order in which they get the lock, each with the time it has read: on a
clock that never goes back every list is such a run.

Numbers of type `float64` are rationals, and every operation on them is followed by a rounding `fl`,
of which `Rounding` says what the results need: an overflow, `+Inf` in the source, is cut off by the
burst just as the exact value is. -/

namespace GitSlice.RateLimit

open List

/-- What a call of the limiter rounds with, up to the relative and absolute error `u`. -/
structure Rounding (fl : ℚ → ℚ) (u : ℚ) : Prop where
  nonneg : 0 ≤ u
  small : u ≤ 1 / 8
  fl_nonneg : ∀ {x}, 0 ≤ x → 0 ≤ fl x
  fl_le : ∀ {x}, 0 ≤ x → fl x ≤ x + u * (x + 1)
  fl_le_fl : ∀ {x y}, x ≤ fl y → fl x ≤ fl y

/-- The bucket of a key; times are in nanoseconds. -/
structure Bucket where
  tokens : ℚ
  last : ℤ

/-- The parameters of a limiter. -/
structure Limiter where
  ratePerSec : ℚ
  burst : ℤ
  ttl : ℤ

/-- What a limiter changes under its lock. -/
structure State where
  /-- `none` is the zero time. -/
  lastSweep : Option ℤ
  buckets : Table String Bucket

/-- `Time.Sub`, which saturates at the bounds of a `Duration`. -/
def sub (t u : ℤ) : ℤ := max (-2 ^ 63) (min (2 ^ 63 - 1) (t - u))

/-- `Duration.Seconds`. -/
def seconds (fl : ℚ → ℚ) (d : ℤ) : ℚ :=
  fl (d.tdiv (10 ^ 9) + fl (d.tmod (10 ^ 9) / 10 ^ 9))

namespace Limiter

variable (fl : ℚ → ℚ) (l : Limiter)

/-- A bucket that was not used for longer than `ttl`. -/
def idle (now : ℤ) (b : Bucket) : Bool := 0 < l.ttl ∧ l.ttl < sub now b.last

/-- How long a limiter waits between two sweeps. -/
def sweepInterval : ℤ :=
  let interval := if l.ttl.tdiv 2 ≤ 0 then l.ttl else l.ttl.tdiv 2
  min interval (60 * 10 ^ 9)

/-- `sweep`: drop the idle buckets, if the last sweep is long enough ago. -/
def sweep (s : State) (now : ℤ) : State :=
  if l.ttl ≤ 0 then s
  else match s.lastSweep with
    | none => { s with lastSweep := some now }
    | some last =>
      if sub now last < l.sweepInterval then s
      else
        { lastSweep := some now
          buckets := s.buckets.keep fun k => !(s.buckets.get k).any (l.idle now) }

/-- The bucket that a call works on: the key's own, or a full one. -/
def bucket (s : State) (key : String) (now : ℤ) : Bucket :=
  match s.buckets.get key with
  | none => ⟨fl l.burst, now⟩
  | some b => if l.idle now b then ⟨fl l.burst, now⟩ else b

/-- The tokens of a bucket at a call, before the call takes one. -/
def refill (b : Bucket) (now : ℤ) : ℚ :=
  if 0 < seconds fl (sub now b.last) then
    min (fl l.burst) (fl (b.tokens + fl (seconds fl (sub now b.last) * l.ratePerSec)))
  else b.tokens

/-- `Allow`, from the state in which the lock is taken, with the time read before. -/
def allow (s : State) (key : String) (now : ℤ) : State × Bool :=
  if l.ratePerSec ≤ 0 then (s, true)
  else
    let s := l.sweep s now
    let tokens := l.refill fl (l.bucket fl s key now) now
    if tokens < 1 then ({ s with buckets := s.buckets.set key ⟨tokens, now⟩ }, false)
    else ({ s with buckets := s.buckets.set key ⟨fl (tokens - 1), now⟩ }, true)

/-- The calls of a run, each with its answer. -/
def answers (s : State) : List (String × ℤ) → List ((String × ℤ) × Bool)
  | [] => []
  | c :: calls => (c, (l.allow fl s c.1 c.2).2) :: answers (l.allow fl s c.1 c.2).1 calls

end Limiter

/-- A call for the key that reads a time of the interval. -/
def within (key : String) (start stop : ℤ) (c : String × ℤ) : Bool :=
  c.1 = key ∧ start ≤ c.2 ∧ c.2 ≤ stop

/-- How many calls for the key are allowed in the interval. -/
def grants (key : String) (start stop : ℤ) (answers : List ((String × ℤ) × Bool)) : ℕ :=
  answers.countP fun a => within key start stop a.1 && a.2

/-- The limiter of `New`. -/
def init : State := ⟨none, .empty⟩

/-- The parameters that a limiter keeps its bound with: a bucket dropped as idle would be full. -/
structure Fair (fl : ℚ → ℚ) (u : ℚ) (l : Limiter) : Prop extends Rounding fl u where
  rate : 0 < l.ratePerSec
  /-- With a negative burst no call is allowed, and the bound itself is negative. -/
  burst : 0 ≤ l.burst
  ttl : l.ttl ≤ 0 ∨ l.burst ≤ l.ratePerSec * l.ttl / 10 ^ 9

/-! ## What one call can give -/

variable {fl : ℚ → ℚ} {u : ℚ} {l : Limiter} {b : Bucket} {s : State} {now t d start stop T : ℤ}
  {key : String}

theorem Rounding.le (hfl : Rounding fl u) {x y e : ℚ} (hx : 0 ≤ x) (he : 0 ≤ e)
    (hxy : x ≤ y + u * e) : fl x ≤ y + u * (9 / 8 * e + y + 1) := by
  have hround := hfl.fl_le hx
  have hmul := mul_le_mul_of_nonneg_left hxy hfl.nonneg
  have hsmall := mul_le_mul_of_nonneg_left hfl.small (mul_nonneg hfl.nonneg he)
  linarith

theorem sub_le (h : t ≤ now) : 0 ≤ sub now t ∧ sub now t ≤ now - t := by
  unfold sub
  omega

/-- Seconds are right up to `3 * u` of the duration and of a second. -/
theorem Rounding.seconds_le (hfl : Rounding fl u) (hd : 0 ≤ d) :
    seconds fl d ≤ d / 10 ^ 9 + u * (3 * (d / 10 ^ 9) + 3) := by
  have hsplit := congrArg (Int.cast (R := ℚ)) (Int.mul_tdiv_add_tmod d (10 ^ 9))
  simp only [Int.cast_add, Int.cast_mul, Int.cast_pow, Int.cast_ofNat] at hsplit
  have hq : (0 : ℚ) ≤ d.tdiv (10 ^ 9) := Int.cast_nonneg (Int.tdiv_nonneg hd (by decide))
  have hr : (0 : ℚ) ≤ d.tmod (10 ^ 9) / 10 ^ 9 :=
    div_nonneg (Int.cast_nonneg (Int.tmod_nonneg _ hd)) (by norm_num)
  rw [seconds, ← hsplit, add_div, mul_div_cancel_left₀ _ (by norm_num)]
  generalize (d.tdiv (10 ^ 9) : ℚ) = q, (d.tmod (10 ^ 9) / 10 ^ 9 : ℚ) = r at *
  have hle := hfl.le (add_nonneg hq (hfl.fl_nonneg hr)) (y := q + r) (e := r + 1) (by linarith)
    (by linarith [hfl.fl_le hr])
  linarith [hfl.nonneg, mul_nonneg hfl.nonneg hq, mul_nonneg hfl.nonneg hr]

/-- The tokens earned up to a time, counted from time 0. -/
def Limiter.earned (l : Limiter) (t : ℤ) : ℚ := l.ratePerSec * t / 10 ^ 9

theorem earned_sub (l : Limiter) (t d : ℤ) : l.earned (t - d) = l.earned t - l.earned d := by
  rw [Limiter.earned, Int.cast_sub, mul_sub, sub_div]
  rfl

/-- What a call may give away by rounding. -/
def error (l : Limiter) (u : ℚ) : ℚ := 16 * u * (l.burst + l.ratePerSec + 1)

/-- A bucket of a run that has come to time `T`. -/
structure BucketOk (fl : ℚ → ℚ) (l : Limiter) (T : ℤ) (b : Bucket) : Prop where
  nonneg : 0 ≤ b.tokens
  full : b.tokens ≤ fl l.burst
  last : b.last ≤ T

/-- Every bucket of the state is one. -/
def Ok (fl : ℚ → ℚ) (l : Limiter) (T : ℤ) (s : State) : Prop :=
  ∀ k b, s.buckets.get k = some b → BucketOk fl l T b

namespace Fair

variable (h : Fair fl u l)

include h

theorem earned_mono (htd : t ≤ d) : l.earned t ≤ l.earned d := by
  have hmul := mul_le_mul_of_nonneg_left (Int.cast_le (R := ℚ).mpr htd) h.rate.le
  simp only [Limiter.earned]
  linarith

theorem burst_nonneg : (0 : ℚ) ≤ l.burst := Int.cast_nonneg h.burst

theorem full_nonneg : 0 ≤ fl l.burst := h.fl_nonneg h.burst_nonneg

theorem error_nonneg : 0 ≤ error l u :=
  mul_nonneg (mul_nonneg (by norm_num) h.nonneg) (by linarith [h.burst_nonneg, h.rate])

theorem error_bounds : fl l.burst + u * fl l.burst ≤ l.burst + error l u ∧
    u * (9 * fl l.burst + 4 * l.ratePerSec + 3) ≤ error l u := by
  have hcast := h.burst_nonneg
  have hround := h.fl_le hcast
  have hsmall := mul_le_mul_of_nonneg_right h.small (by linarith : (0 : ℚ) ≤ l.burst + 1)
  have hscale {x : ℚ} (hx : x ≤ 16 * (l.burst + l.ratePerSec + 1)) : u * x ≤ error l u := by
    have := mul_le_mul_of_nonneg_left hx h.nonneg
    simp only [error]
    linarith
  have hrate := h.rate
  refine ⟨?_, hscale (by linarith)⟩
  linarith [hscale (x := l.burst + 1 + fl l.burst) (by linarith)]

theorem refill_bounds (hb : BucketOk fl l now b) :
    0 ≤ l.refill fl b now ∧ l.refill fl b now ≤ fl l.burst := by
  unfold Limiter.refill
  split
  · rename_i hpos
    have hgain := h.fl_nonneg (mul_nonneg hpos.le h.rate.le)
    exact ⟨le_min h.full_nonneg (h.fl_nonneg (add_nonneg hb.nonneg hgain)), min_le_left _ _⟩
  · exact ⟨hb.nonneg, hb.full⟩

theorem refill_le (hb : BucketOk fl l now b) :
    l.refill fl b now ≤ b.tokens + (l.earned now - l.earned b.last)
      + u * (8 * fl l.burst + 4 * l.ratePerSec + 3) := by
  obtain ⟨hsub0, hsub⟩ := sub_le hb.last
  have hearned := h.earned_mono hsub
  rw [earned_sub] at hearned
  have hgained := h.earned_mono hsub0
  rw [Limiter.earned, Int.cast_zero, mul_zero, zero_div] at hgained
  have hrate := h.rate
  have herr : 0 ≤ u * (8 * fl l.burst + 4 * l.ratePerSec + 3) :=
    mul_nonneg h.nonneg (by linarith [h.full_nonneg])
  unfold Limiter.refill
  split
  · rename_i hpos
    -- Over a time that earns more than the burst the bucket is full without rounding.
    by_cases hmore : fl l.burst ≤ l.earned (sub now b.last)
    · refine (min_le_left _ _).trans ?_
      linarith [hb.nonneg]
    · refine (min_le_right _ _).trans ?_
      have hprod := mul_nonneg hpos.le hrate.le
      have hmul := mul_le_mul_of_nonneg_right (h.seconds_le hsub0) hrate.le
      have hgain := h.le hprod (y := l.earned (sub now b.last))
        (e := 3 * l.earned (sub now b.last) + 3 * l.ratePerSec) (by linarith)
        (by simp only [Limiter.earned]; linarith)
      generalize l.earned (sub now b.last) = g at *
      have hsum := h.le (add_nonneg hb.nonneg (h.fl_nonneg hprod)) (y := b.tokens + g)
        (e := 9 / 8 * (3 * g + 3 * l.ratePerSec) + g + 1) (by linarith) (by linarith)
      refine hsum.trans (add_le_add (by linarith) (mul_le_mul_of_nonneg_left ?_ h.nonneg))
      linarith [hb.full]
  · linarith

theorem bucketOk_bucket (key : String) (hs : Ok fl l now s) :
    BucketOk fl l now (l.bucket fl s key now) := by
  have hfresh : BucketOk fl l now ⟨fl l.burst, now⟩ := ⟨h.full_nonneg, le_rfl, le_rfl⟩
  unfold Limiter.bucket
  split
  · exact hfresh
  · rename_i b hget
    split
    · exact hfresh
    · exact hs key b hget

theorem allow_spec (k : String) (hs : Ok fl l now (l.sweep s now)) :
    ∃ tokens, (l.allow fl s k now).1.buckets = (l.sweep s now).buckets.set k ⟨tokens, now⟩ ∧
      BucketOk fl l now ⟨tokens, now⟩ ∧
      tokens + (if (l.allow fl s k now).2 then 1 else 0)
        ≤ l.refill fl (l.bucket fl (l.sweep s now) k now) now + u * fl l.burst := by
  obtain ⟨hnonneg, hfull⟩ := h.refill_bounds (h.bucketOk_bucket k hs)
  simp only [Limiter.allow, if_neg (not_le.mpr h.rate)]
  generalize l.refill fl (l.bucket fl (l.sweep s now) k now) now = tokens at *
  have hmul := mul_le_mul_of_nonneg_left hfull h.nonneg
  split
  · refine ⟨tokens, rfl, ⟨hnonneg, hfull, le_rfl⟩, ?_⟩
    simpa using mul_nonneg h.nonneg h.full_nonneg
  · have hrest : 0 ≤ tokens - 1 := by linarith
    refine ⟨_, rfl, ⟨h.fl_nonneg hrest, h.fl_le_fl (by linarith), le_rfl⟩, ?_⟩
    simp only [if_true]
    linarith [h.fl_le hrest]

end Fair

/-! ## What a whole run can give
The `worth` of a bucket bounds the calls that the rest of a run can still be allowed in the
interval, up to rounding: a bucket last used before the interval may be full when the interval
begins. -/

/-- What is left for the interval at time `T`, from the bucket of the key. -/
def worth (l : Limiter) (start stop T : ℤ) : Option Bucket → ℚ
  | none => l.burst + (l.earned stop - l.earned (max start T))
  | some b =>
    if b.last < start then l.burst + (l.earned stop - l.earned start)
    else b.tokens + (l.earned stop - l.earned b.last)

theorem get_sweep (l : Limiter) (s : State) (now : ℤ) (key : String) :
    (l.sweep s now).buckets.get key = s.buckets.get key ∨
      (l.sweep s now).buckets.get key = none ∧
        ∃ b, s.buckets.get key = some b ∧ l.idle now b = true := by
  unfold Limiter.sweep
  split_ifs
  · exact .inl rfl
  · split
    · exact .inl rfl
    · split_ifs
      · exact .inl rfl
      · rw [Table.get_keep]
        cases s.buckets.get key with
        | none => simp
        | some b => cases hidle : l.idle now b <;> simp [hidle]

namespace Ok

theorem worth_before (hs : Ok fl l now s) (hnow : now < start) :
    worth l start stop now (s.buckets.get key) = l.burst + (l.earned stop - l.earned start) := by
  cases hget : s.buckets.get key with
  | none => rw [worth, max_eq_left hnow.le]
  | some b => rw [worth, if_pos ((hs key b hget).last.trans_lt hnow)]

theorem sweep (hs : Ok fl l T s) (hT : T ≤ now) : Ok fl l now (l.sweep s now) := by
  intro k b hget
  rcases get_sweep l s now k with hsame | ⟨hnone, -⟩
  · have hb := hs k b (hsame ▸ hget)
    exact ⟨hb.nonneg, hb.full, hb.last.trans hT⟩
  · rw [hnone] at hget
    cases hget

end Ok

theorem grants_eq_zero {calls : List (String × ℤ)} (h : ∀ c ∈ calls, stop < c.2) :
    grants key start stop (l.answers fl s calls) = 0 := by
  induction calls generalizing s with
  | nil => rfl
  | cons c calls ih =>
    have hout : within key start stop c = false := by
      simp [within, not_le.mpr (h c mem_cons_self)]
    simp only [Limiter.answers, grants, countP_cons, hout, Bool.false_and]
    exact ih fun c hc => h c (mem_cons_of_mem _ hc)

namespace Fair

variable (h : Fair fl u l)

include h

theorem worth_nonneg (hwindow : start ≤ stop) (hs : Ok fl l T s) (hT : T ≤ stop) :
    0 ≤ worth l start stop T (s.buckets.get key) := by
  have hburst := h.burst_nonneg
  cases hget : s.buckets.get key with
  | none =>
    rw [worth]
    linarith [h.earned_mono (max_le hwindow hT)]
  | some b =>
    have hb := hs key b hget
    rw [worth]
    split
    · linarith [h.earned_mono hwindow]
    · linarith [hb.nonneg, h.earned_mono (hb.last.trans hT)]

/-- A bucket that has been idle is worth no less than a full one. -/
theorem worth_of_idle (hb : BucketOk fl l T b) (hT : T ≤ now) (hidle : l.idle now b = true) :
    worth l start stop now none ≤ worth l start stop T (some b) := by
  obtain ⟨hpos, hlong⟩ := of_decide_eq_true hidle
  have hfull : l.burst ≤ l.earned l.ttl := h.ttl.resolve_left (by omega)
  simp only [worth]
  split
  · linarith [h.earned_mono (le_max_left start now)]
  · have hgap := h.earned_mono (hlong.le.trans (sub_le (hb.last.trans hT)).2)
    rw [earned_sub] at hgap
    linarith [hb.nonneg, h.earned_mono (le_max_right start now)]

theorem worth_sweep (start stop : ℤ) (key : String) (hs : Ok fl l T s) (hT : T ≤ now) :
    worth l start stop now ((l.sweep s now).buckets.get key)
      ≤ worth l start stop T (s.buckets.get key) := by
  rcases get_sweep l s now key with hget | ⟨hget, b, hold, hidle⟩
  · rw [hget]
    cases s.buckets.get key with
    | none =>
      simp only [worth]
      linarith [h.earned_mono (max_le_max_left start hT)]
    | some b => exact le_rfl
  · rw [hget, hold]
    exact h.worth_of_idle (hs key b hold) hT hidle

/-- In the interval, what a call has to spend was in the worth of the bucket. -/
theorem refill_le_worth (key : String) (stop : ℤ) (hs : Ok fl l now s) (hstart : start ≤ now) :
    l.refill fl (l.bucket fl s key now) now + u * fl l.burst + (l.earned stop - l.earned now)
      ≤ worth l start stop now (s.buckets.get key) + error l u := by
  have hle := (h.refill_bounds (h.bucketOk_bucket key hs)).2
  obtain ⟨hfull, hcall⟩ := h.error_bounds
  have hfresh : l.refill fl (l.bucket fl s key now) now + u * fl l.burst
      + (l.earned stop - l.earned now) ≤ worth l start stop now none + error l u := by
    simp only [worth, max_eq_right hstart]
    linarith
  cases hget : s.buckets.get key with
  | none => exact hfresh
  | some b =>
    by_cases hidle : l.idle now b = true
    · exact hfresh.trans (add_le_add_left (h.worth_of_idle (hs key b hget) le_rfl hidle) _)
    · have hb : l.bucket fl s key now = b := by simp [Limiter.bucket, hget, hidle]
      rw [hb] at hle ⊢
      simp only [worth]
      split
      · linarith [h.earned_mono hstart]
      · linarith [h.refill_le (hs key b hget)]

/-- One call: what it is allowed in the interval is taken from the worth of the bucket. -/
theorem worth_allow (k : String) (hs : Ok fl l T s) (hT : T ≤ now) (hstop : now ≤ stop) :
    Ok fl l now (l.allow fl s k now).1 ∧
      worth l start stop now ((l.allow fl s k now).1.buckets.get key)
          + (if within key start stop (k, now) && (l.allow fl s k now).2 then 1 else 0)
        ≤ worth l start stop T (s.buckets.get key)
          + (if within key start stop (k, now) then error l u else 0) := by
  have hsweep := h.worth_sweep start stop key hs hT
  have hok := hs.sweep hT
  obtain ⟨tokens, hset, htokens, hspent⟩ := h.allow_spec k hok
  have hok' : Ok fl l now (l.allow fl s k now).1 := by
    rw [Ok, hset]
    exact Table.forall_set hok htokens
  refine ⟨hok', ?_⟩
  by_cases hk : k = key
  · subst hk
    by_cases hstart : start ≤ now
    · have hworth := h.refill_le_worth k stop hok hstart
      have hleft : worth l start stop now (some ⟨tokens, now⟩)
          = tokens + (l.earned stop - l.earned now) := if_neg (not_lt.mpr hstart)
      rw [hset, Table.get_set_self, hleft]
      simp only [within, hstart, hstop, and_self, decide_true, Bool.true_and, if_true]
      linarith
    · rw [hok'.worth_before (not_le.mp hstart), ← hok.worth_before (not_le.mp hstart)]
      simpa [within, hstart] using hsweep
  · rw [hset, Table.get_set_of_ne _ _ (Ne.symm hk)]
    simpa [within, hk] using hsweep

theorem grants_answers_le (calls : List (String × ℤ)) (hwindow : start ≤ stop)
    (hs : Ok fl l T s) (hT : T ≤ stop) (horder : (T :: calls.map Prod.snd).Pairwise (· ≤ ·)) :
    (grants key start stop (l.answers fl s calls) : ℚ)
      ≤ worth l start stop T (s.buckets.get key)
        + calls.countP (within key start stop) * error l u := by
  induction calls generalizing s T with
  | nil => simpa [Limiter.answers, grants] using h.worth_nonneg hwindow hs hT
  | cons c calls ih =>
    obtain ⟨hfirst, horder⟩ := pairwise_cons.mp horder
    by_cases hstop : c.2 ≤ stop
    · obtain ⟨hs', hstep⟩ := h.worth_allow c.1 hs (hfirst c.2 mem_cons_self) hstop
      have hrest := ih hs' hstop horder
      simp only [Limiter.answers, grants, countP_cons, Nat.cast_add, Nat.cast_ite, Nat.cast_one,
        Nat.cast_zero, add_mul, ite_mul, one_mul, zero_mul] at hrest ⊢
      linarith
    · have hafter : ∀ c' ∈ c :: calls, stop < c'.2 := by
        refine forall_mem_cons.mpr ⟨not_le.mp hstop, fun c' hc => ?_⟩
        exact (not_le.mp hstop).trans_le ((pairwise_cons.mp horder).1 _ (mem_map_of_mem hc))
      rw [grants_eq_zero hafter, Nat.cast_zero]
      exact add_nonneg (h.worth_nonneg hwindow hs hT) (mul_nonneg (Nat.cast_nonneg _) h.error_nonneg)

end Fair

/-- **The limiter bounds every interval**: `burst` calls, and `rate` more for each second, and one.
The calls get the lock in the order of the times they have read, and the rounding errors of the
calls counted do not add up to more than a token. -/
theorem grants_le_burst_add_rate {calls : List (String × ℤ)} (h : Fair fl u l)
    (horder : (calls.map Prod.snd).Pairwise (· ≤ ·)) (hwindow : start ≤ stop)
    (herror : calls.countP (within key start stop) * error l u ≤ 1) :
    (grants key start stop (l.answers fl init calls) : ℚ)
      ≤ l.burst + l.ratePerSec * (stop - start) / 10 ^ 9 + 1 := by
  obtain ⟨T, hT, hfirst⟩ : ∃ T ≤ start, (T :: calls.map Prod.snd).Pairwise (· ≤ ·) := by
    cases calls with
    | nil => exact ⟨start, le_rfl, pairwise_singleton _ _⟩
    | cons c calls =>
      refine ⟨min start c.2, min_le_left _ _, pairwise_cons.mpr ⟨?_, horder⟩⟩
      refine forall_mem_cons.mpr ⟨min_le_right _ _, fun t ht => ?_⟩
      exact (min_le_right _ _).trans ((pairwise_cons.mp horder).1 t ht)
  have hinit : Ok fl l T init := fun k b h => nomatch h
  have hsum : (grants key start stop (l.answers fl init calls) : ℚ) ≤ _ :=
    h.grants_answers_le calls hwindow hinit (hT.trans hwindow) hfirst
  have hnew : worth l start stop T (init.buckets.get key)
      = l.burst + (l.earned stop - l.earned (max start T)) := rfl
  rw [hnew, max_eq_left hT, ← earned_sub, Limiter.earned, Int.cast_sub] at hsum
  linarith

/-- Three calls at once, one after a second, and two after the bucket was dropped as idle. -/
theorem grants_le_eight : (grants "a" 0 (5 * 10 ^ 9) ((Limiter.mk 1 2 (2 * 10 ^ 9)).answers id init
    (replicate 3 ("a", 0) ++ [("a", 10 ^ 9), ("b", 10 ^ 9)] ++
      replicate 2 ("a", 5 * 10 ^ 9))) : ℚ) ≤ 8 := by
  have hid : Fair id 0 ⟨1, 2, 2 * 10 ^ 9⟩ :=
    ⟨⟨le_rfl, by norm_num, id, fun _ => by simp, id⟩, one_pos, by decide, .inr (by norm_num)⟩
  refine (grants_le_burst_add_rate hid ?_ (by decide) ?_).trans ?_ <;> decide +kernel

/-- The bound fails where calls get the lock in another order than they read the clock (each call
that has read second 0 sets the bucket's time back, so that the next one refills it again), where an
idle bucket is dropped before it would have been full, and where the rate is 0. -/
theorem grants_gt :
    (1 + 1 * 0 + 1 : ℚ) < grants "a" (10 ^ 9) (10 ^ 9) ((Limiter.mk 1 1 0).answers id init
        [("a", 10 ^ 9), ("a", 0), ("a", 10 ^ 9), ("a", 0), ("a", 10 ^ 9)]) ∧
      (4 + 1 * (10 ^ 9 + 1) / 10 ^ 9 + 1 : ℚ) < grants "a" 0 (10 ^ 9 + 1)
        ((Limiter.mk 1 4 (10 ^ 9)).answers id init
          (replicate 4 ("a", 0) ++ replicate 4 ("a", 10 ^ 9 + 1))) ∧
      (1 + 0 * 0 + 1 : ℚ) < grants "a" 0 0
        ((Limiter.mk 0 1 0).answers id init (replicate 3 ("a", 0))) := by
  decide +kernel

/-- What `float64` makes of `2 ^ 54 - 1`, which it cannot hold. -/
def absorb (x : ℚ) : ℚ := if x = 2 ^ 54 - 1 then 2 ^ 54 else x

/-- With a burst of `2 ^ 54` the token that a call takes rounds away, so every call is allowed. -/
theorem grants_absorbed (n : ℕ) : grants "a" 0 0
    ((Limiter.mk 1 (2 ^ 54) 0).answers absorb init (replicate n ("a", 0))) = n := by
  have hstep : ∀ s : State, (s.buckets.get "a").all (fun b => b.tokens = 2 ^ 54 ∧ b.last = 0) = true →
      ((Limiter.mk 1 (2 ^ 54) 0).allow absorb s "a" 0).2 = true ∧
      ((Limiter.mk 1 (2 ^ 54) 0).allow absorb s "a" 0).1.buckets.get "a" = some ⟨2 ^ 54, 0⟩ := by
    intro s hs
    have hbucket : (Limiter.mk 1 (2 ^ 54) 0).bucket absorb s "a" 0 = ⟨2 ^ 54, 0⟩ := by
      rw [Limiter.bucket]
      cases hget : s.buckets.get "a" with
      | none => norm_num [absorb]
      | some b =>
        obtain ⟨tokens, last⟩ := b
        rw [hget] at hs
        obtain ⟨rfl, rfl⟩ : tokens = 2 ^ 54 ∧ last = 0 := by simpa using hs
        rfl
    have hrefill : (Limiter.mk 1 (2 ^ 54) 0).refill absorb ⟨2 ^ 54, 0⟩ 0 = 2 ^ 54 := by
      decide +kernel
    simp only [Limiter.allow, Limiter.sweep, le_refl, if_true, hbucket, hrefill]
    norm_num [absorb, Table.get_set_self]
  suffices hall : ∀ (n : ℕ) (s : State),
      (s.buckets.get "a").all (fun b => b.tokens = 2 ^ 54 ∧ b.last = 0) = true →
      grants "a" 0 0 ((Limiter.mk 1 (2 ^ 54) 0).answers absorb s (replicate n ("a", 0))) = n from
    hall n init rfl
  intro n
  induction n with
  | zero => exact fun _ _ => rfl
  | succ n ih =>
    intro s hs
    obtain ⟨hallowed, hget⟩ := hstep s hs
    have hrest := ih _ (by rw [hget]; simp : (((Limiter.mk 1 (2 ^ 54) 0).allow absorb s "a" 0).1.buckets.get
      "a").all (fun b => b.tokens = 2 ^ 54 ∧ b.last = 0) = true)
    rw [grants] at hrest ⊢
    rw [replicate_succ, Limiter.answers, countP_cons, hrest, hallowed]
    rfl

end GitSlice.RateLimit
