import Splice.Lib.Budget
import Splice.Proto.Pairing
import Std.Data.ExtTreeMap

/-!
Token buckets for the datagrams of the relay: one for each source address and one for all of
them. The arithmetic is exact. A bucket that has not been touched for long is forgotten, and
by then it was full.
-/

namespace Splice.Server
open Proto Lib

structure TokenBucket where
  tokens : ℚ
  /-- tokens a second -/
  rate : ℚ
  burst : ℚ
  last : Int

def TokenBucket.allow (b : TokenBucket) (now : Int) (cost : ℚ) : Bool × TokenBucket :=
  let elapsed : ℚ := (now - b.last : Int) / 1000
  let b := if elapsed > 0 then
      { b with tokens := min b.burst (b.tokens + elapsed * b.rate), last := now }
    else b
  if b.tokens ≥ cost then (true, { b with tokens := b.tokens - cost }) else (false, b)

structure Limits where
  ipRate : ℚ
  ipBurst : ℚ
  globalRate : ℚ
  globalBurst : ℚ

/-- Positive, and a bucket left alone for 300 s is full. -/
structure Limits.Sound (c : Limits) : Prop where
  ipRate : 0 < c.ipRate
  ipBurst : 0 < c.ipBurst
  globalRate : 0 < c.globalRate
  globalBurst : 0 < c.globalBurst
  refilled : c.ipBurst ≤ c.ipRate * 300

structure RateLimiter where
  ip : Std.ExtTreeMap Bytes TokenBucket
  global : TokenBucket
  ipRate : ℚ
  ipBurst : ℚ

/-- What the server suggests. -/
def suggested : Limits := ⟨500, 1000, 10000, 20000⟩

theorem suggested_sound : suggested.Sound := by
  constructor <;> norm_num [suggested]

namespace RateLimiter

def new (c : Limits) : RateLimiter where
  ip := ∅
  global := ⟨c.globalBurst, c.globalRate, c.globalBurst, 0⟩
  ipRate := c.ipRate
  ipBurst := c.ipBurst

/-- An empty bucket of the address charges nothing else. -/
def allow (l : RateLimiter) (ip : Ip6) (now : Int) : Bool × RateLimiter :=
  let bucket := l.ip[ip.toList]?.getD ⟨l.ipBurst, l.ipRate, l.ipBurst, now⟩
  let (ok, bucket) := bucket.allow now 1
  let l := { l with ip := l.ip.insert ip.toList bucket }
  if !ok then (false, l)
  else
    let (ok, global) := l.global.allow now 1
    (ok, { l with global })

def evictIdle (l : RateLimiter) (now idleMs : Int) : RateLimiter :=
  { l with ip := l.ip.filter fun _ b => ¬ now - b.last > idleMs }

end RateLimiter

/-! ## One bucket -/

namespace TokenBucket

/-- What the bucket has to give at a time. -/
def level (b : TokenBucket) (t : Int) : ℚ :=
  if b.last < t then min b.burst (b.tokens + (t - b.last : Int) / 1000 * b.rate) else b.tokens

structure Valid (rate burst : ℚ) (b : TokenBucket) : Prop where
  filled : b.rate = rate
  holds : b.burst = burst
  nonneg : 0 ≤ b.tokens
  le : b.tokens ≤ burst

/-- A call looks at the level and takes one off it if it can. -/
theorem allow_eq (b : TokenBucket) (now : Int) : b.allow now 1 =
    (decide (1 ≤ b.level now), { b with
      tokens := b.level now - if 1 ≤ b.level now then 1 else 0
      last := max b.last now }) := by
  have elapsed : ((now - b.last : Int) / 1000 : ℚ) > 0 ↔ b.last < now := by
    rw [gt_iff_lt, div_pos_iff_of_pos_right (by norm_num)]
    exact_mod_cast Int.sub_pos
  simp only [allow, level, elapsed]
  by_cases later : b.last < now
  · simp only [if_pos later, max_eq_right later.le, ge_iff_le]
    split <;> simp_all
  · simp only [if_neg later, max_eq_left (not_lt.mp later), ge_iff_le]
    split <;> simp_all

variable {b : TokenBucket} {rate burst : ℚ}

theorem Valid.level_nonneg (v : b.Valid rate burst) (pos : 0 ≤ rate) (t : Int) :
    0 ≤ b.level t := by
  rw [level]
  split
  · rename_i later
    have elapsed : (0 : ℚ) ≤ (t - b.last : Int) := by exact_mod_cast Int.sub_nonneg.mpr later.le
    have more : 0 ≤ ((t - b.last : Int) : ℚ) / 1000 * b.rate := by
      rw [v.filled]
      positivity
    have tokens := v.nonneg
    have room := v.nonneg.trans v.le
    rw [v.holds]
    exact le_min room (by linarith)
  · exact v.nonneg

theorem Valid.level_le (v : b.Valid rate burst) (t : Int) : b.level t ≤ burst := by
  rw [level]
  split
  · exact (min_le_left ..).trans v.holds.le
  · exact v.le

/-- A bucket fills no faster than its rate. -/
theorem Valid.level_fill (v : b.Valid rate burst) (pos : 0 ≤ rate) {t t' : Int} (h : t ≤ t') :
    b.level t' ≤ b.level t + rate / 1000 * (t' - t : Int) := by
  have elapsed : (0 : ℚ) ≤ (t' - t : Int) := by exact_mod_cast Int.sub_nonneg.mpr h
  have more : 0 ≤ rate / 1000 * (t' - t : Int) := by positivity
  simp only [level, v.filled, v.holds]
  by_cases late : b.last < t
  · rw [if_pos (late.trans_le h), if_pos late, ← min_add_add_right]
    refine min_le_min (by linarith) (le_of_eq ?_)
    push_cast
    ring
  · rw [if_neg late]
    split
    · refine (min_le_right ..).trans ?_
      have short : ((t' - b.last : Int) : ℚ) ≤ (t' - t : Int) := by
        exact_mod_cast Int.sub_le_sub_left (not_lt.mp late) t'
      have := mul_le_mul_of_nonneg_left short (by positivity : 0 ≤ rate / 1000)
      linarith
    · linarith

theorem Valid.allow (v : b.Valid rate burst) (pos : 0 ≤ rate) (now : Int) :
    (b.allow now 1).2.Valid rate burst := by
  have le := v.level_le now
  have nonneg := v.level_nonneg pos now
  rw [allow_eq]
  refine ⟨v.filled, v.holds, ?_, ?_⟩ <;> simp only <;> split <;> linarith

/-- An allowed call takes one token. -/
theorem level_allow (b : TokenBucket) (now : Int) :
    (b.allow now 1).2.level now + (if (b.allow now 1).1 then 1 else 0) = b.level now := by
  rw [allow_eq, level, if_neg (by simp)]
  by_cases enough : 1 ≤ b.level now <;> simp [enough]

end TokenBucket

/-! ## The limiter -/

namespace RateLimiter

structure Valid (c : Limits) (l : RateLimiter) : Prop where
  ipRate : l.ipRate = c.ipRate
  ipBurst : l.ipBurst = c.ipBurst
  bucket : ∀ (ip : Bytes) (b : TokenBucket), l.ip[ip]? = some b → b.Valid c.ipRate c.ipBurst
  global : l.global.Valid c.globalRate c.globalBurst

variable {c : Limits} {l l' : RateLimiter}

/-- The bucket an address is charged on. -/
def bucketAt (l : RateLimiter) (ip : Ip6) (now : Int) : TokenBucket :=
  l.ip[ip.toList]?.getD ⟨l.ipBurst, l.ipRate, l.ipBurst, now⟩

/-- What an address has to give. -/
def ipLevel (l : RateLimiter) (ip : Ip6) (t : Int) : ℚ := (l.bucketAt ip t).level t

/-- A call charges the bucket of the address, and the other one if that had a token. -/
theorem allow_eq (l : RateLimiter) (ip : Ip6) (now : Int) : l.allow ip now =
    let charged := (l.bucketAt ip now).allow now 1
    (charged.1 && (l.global.allow now 1).1, { l with
      ip := l.ip.insert ip.toList charged.2
      global := if charged.1 then (l.global.allow now 1).2 else l.global }) := by
  rw [allow]
  simp only [← bucketAt.eq_def]
  cases ((l.bucketAt ip now).allow now 1).1 <;> simp

theorem Valid.bucketAt (v : l.Valid c) (pos : 0 < c.ipBurst) (ip : Ip6) (now : Int) :
    (l.bucketAt ip now).Valid c.ipRate c.ipBurst := by
  rw [RateLimiter.bucketAt]
  cases found : l.ip[ip.toList]? with
  | none => exact ⟨v.ipRate, v.ipBurst, v.ipBurst ▸ pos.le, v.ipBurst.le⟩
  | some b => exact v.bucket _ b found

theorem valid_new (sound : c.Sound) : (new c).Valid c :=
  ⟨rfl, rfl, fun _ _ => nofun, rfl, rfl, sound.globalBurst.le, le_rfl⟩

theorem Valid.allow (v : l.Valid c) (sound : c.Sound) (ip : Ip6) (now : Int) :
    (l.allow ip now).2.Valid c := by
  rw [allow_eq]
  refine ⟨v.ipRate, v.ipBurst, fun ip' b found => ?_, ?_⟩
  · rw [Std.ExtTreeMap.getElem?_insert] at found
    split at found
    · cases found
      exact (v.bucketAt sound.ipBurst ip now).allow sound.ipRate.le now
    · exact v.bucket ip' b found
  · simp only
    split
    · exact v.global.allow sound.globalRate.le now
    · exact v.global

theorem bucketAt_allow (l : RateLimiter) (ip ip' : Ip6) (now t : Int) :
    (l.allow ip now).2.bucketAt ip' t =
      if ip = ip' then ((l.bucketAt ip now).allow now 1).2 else l.bucketAt ip' t := by
  rw [allow_eq]
  simp only [bucketAt, Std.ExtTreeMap.getElem?_insert]
  by_cases same : ip = ip'
  · simp [same]
  · have other : ¬compare ip.toList ip'.toList = .eq := fun eq =>
      same (List.Vector.toList_injective (Std.LawfulEqCmp.eq_of_compare eq))
    rw [if_neg other, if_neg same]

theorem Valid.ipLevel_fill (v : l.Valid c) (sound : c.Sound) (ip : Ip6) {t t' : Int}
    (h : t ≤ t') : l.ipLevel ip t' ≤ l.ipLevel ip t + c.ipRate / 1000 * (t' - t : Int) := by
  have rate := sound.ipRate.le
  cases found : l.ip[ip.toList]? with
  | none =>
      have elapsed : (0 : ℚ) ≤ (t' - t : Int) := by exact_mod_cast Int.sub_nonneg.mpr h
      have more : 0 ≤ c.ipRate / 1000 * (t' - t : Int) := by positivity
      have full : ∀ now, l.ipLevel ip now = l.ipBurst := fun now => by
        rw [ipLevel, RateLimiter.bucketAt, found, Option.getD_none]
        exact if_neg (lt_irrefl now)
      rw [full, full]
      linarith
  | some b =>
      have level : ∀ now, l.ipLevel ip now = b.level now := fun now => by
        rw [ipLevel, RateLimiter.bucketAt, found, Option.getD_some]
      rw [level, level]
      exact (v.bucket _ b found).level_fill rate h

/-- One call, by what the limiter is asked. -/
def ask (l : RateLimiter) (a : Int × Ip6) : Bool × RateLimiter := l.allow a.2 a.1

theorem ask_allowed (l : RateLimiter) (a : Int × Ip6) : (l.ask a).1 =
    (((l.bucketAt a.2 a.1).allow a.1 1).1 && (l.global.allow a.1 1).1) := by
  rw [ask, allow_eq]

theorem ask_ipLevel (l : RateLimiter) (a : Int × Ip6) (ip : Ip6) : (l.ask a).2.ipLevel ip a.1 =
    if a.2 = ip then ((l.bucketAt a.2 a.1).allow a.1 1).2.level a.1 else l.ipLevel ip a.1 := by
  rw [ask, ipLevel, bucketAt_allow]
  split <;> rfl

theorem ask_global (l : RateLimiter) (a : Int × Ip6) : (l.ask a).2.global =
    if ((l.bucketAt a.2 a.1).allow a.1 1).1 then (l.global.allow a.1 1).2 else l.global := by
  rw [ask, allow_eq]

/-- The bucket of an address bounds what is allowed from it. -/
theorem ip_budget (sound : c.Sound) (ip : Ip6) :
    Budget ask Prod.fst (fun a => a.2 = ip) (fun l t => l.ipLevel ip t) (c.ipRate / 1000)
      c.ipBurst (Valid c) where
  rate_nonneg := div_nonneg sound.ipRate.le (by norm_num)
  kept l a v := v.allow sound a.2 a.1
  nonneg l t v := (v.bucketAt sound.ipBurst ip t).level_nonneg sound.ipRate.le t
  le_cap l t v := (v.bucketAt sound.ipBurst ip t).level_le t
  fill l t t' v h := v.ipLevel_fill sound ip h
  spend l a v := by
    simp only [ask_allowed, ask_ipLevel]
    by_cases own : a.2 = ip
    · have taken := (l.bucketAt a.2 a.1).level_allow a.1
      rw [if_pos own, ← own, ipLevel, ← taken]
      cases ((l.bucketAt a.2 a.1).allow a.1 1).1 <;> cases (l.global.allow a.1 1).1 <;> simp
    · simp [own]

/-- The bucket of all addresses bounds what is allowed at all. -/
theorem global_budget (sound : c.Sound) :
    Budget ask Prod.fst (fun _ => true) (fun l t => l.global.level t) (c.globalRate / 1000)
      c.globalBurst (Valid c) where
  rate_nonneg := div_nonneg sound.globalRate.le (by norm_num)
  kept l a v := v.allow sound a.2 a.1
  nonneg l t v := v.global.level_nonneg sound.globalRate.le t
  le_cap l t v := v.global.level_le t
  fill l t t' v h := v.global.level_fill sound.globalRate.le h
  spend l a v := by
    simp only [ask_allowed, ask_global, Bool.and_true]
    cases ((l.bucketAt a.2 a.1).allow a.1 1).1 with
    | false => simp
    | true =>
        have taken := l.global.level_allow a.1
        simpa using taken.le

/-! ## Forgotten buckets -/

inductive Call
  | allow (ip : Ip6)
  | evict
  deriving DecidableEq

/-- What the maintenance of the relay passes to `evict_idle`. -/
def idleMs : Int := 300000

/-- The answers of a limiter to calls at times, with the address asked for. -/
def decisions : RateLimiter → List (Int × Call) → List ((Int × Ip6) × Bool)
  | _, [] => []
  | l, (now, .allow ip) :: rest =>
      ((now, ip), (l.allow ip now).1) :: decisions (l.allow ip now).2 rest
  | l, (now, .evict) :: rest => decisions (l.evictIdle now idleMs) rest

def asked (calls : List (Int × Call)) : List (Int × Ip6) :=
  calls.filterMap fun
    | (now, .allow ip) => some (now, ip)
    | (_, .evict) => none

/-- A limiter next to one that forgets nothing: what it has forgotten was idle for long. -/
structure Forgets (c : Limits) (now : Int) (l l' : RateLimiter) : Prop where
  valid : l'.Valid c
  ipRate : l.ipRate = c.ipRate
  ipBurst : l.ipBurst = c.ipBurst
  global : l.global = l'.global
  bucket : ∀ ip : Bytes, l.ip[ip]? = l'.ip[ip]? ∨
    l.ip[ip]? = none ∧ ∃ b, l'.ip[ip]? = some b ∧ now - b.last > idleMs

theorem Forgets.later {now now' : Int} (f : Forgets c now l l') (h : now ≤ now') :
    Forgets c now' l l' :=
  { f with bucket := fun ip => (f.bucket ip).imp_right fun ⟨gone, b, found, idle⟩ =>
      ⟨gone, b, found, by omega⟩ }

theorem Forgets.evict {now : Int} (f : Forgets c now l l') :
    Forgets c now (l.evictIdle now idleMs) l' := by
  refine { f with bucket := fun ip => ?_ }
  simp only [evictIdle, Std.ExtTreeMap.getElem?_filter']
  rcases f.bucket ip with same | gone
  · cases found : l'.ip[ip]? with
    | none => simp [same, found]
    | some b =>
        by_cases idle : now - b.last > idleMs
        · exact .inr ⟨by rw [same, found]; simp; omega, b, rfl, idle⟩
        · exact .inl (by rw [same, found]; simp; omega)
  · exact .inr ⟨by simp [gone.1], gone.2⟩

/-- A bucket that was idle for long is charged like a new one. -/
theorem allow_idle {b : TokenBucket} (sound : c.Sound) (v : b.Valid c.ipRate c.ipBurst) {now : Int}
    (idle : now - b.last > idleMs) :
    b.allow now 1 = TokenBucket.allow ⟨c.ipBurst, c.ipRate, c.ipBurst, now⟩ now 1 := by
  have later : b.last < now := by
    rw [idleMs] at idle
    omega
  have long : (300 : ℚ) ≤ ((now - b.last : Int) : ℚ) / 1000 := by
    rw [le_div_iff₀ (by norm_num)]
    have : (300000 : ℚ) < (now - b.last : Int) := by exact_mod_cast idle
    linarith
  have more := mul_le_mul_of_nonneg_right long sound.ipRate.le
  have full : b.level now = c.ipBurst := by
    have refilled := sound.refilled
    have tokens := v.nonneg
    rw [TokenBucket.level, if_pos later, v.holds, v.filled]
    exact min_eq_left (by linarith)
  have fresh : TokenBucket.level ⟨c.ipBurst, c.ipRate, c.ipBurst, now⟩ now = c.ipBurst :=
    if_neg (lt_irrefl now)
  rw [TokenBucket.allow_eq, TokenBucket.allow_eq, full, fresh, max_eq_right later.le, max_self,
    v.filled, v.holds]

theorem Forgets.bucketAt {now : Int} (f : Forgets c now l l') (sound : c.Sound) (ip : Ip6) :
    (l.bucketAt ip now).allow now 1 = (l'.bucketAt ip now).allow now 1 := by
  rcases f.bucket ip.toList with same | ⟨gone, b, found, idle⟩
  · simp only [RateLimiter.bucketAt, same, f.ipRate, f.ipBurst, f.valid.ipRate, f.valid.ipBurst]
  · simp only [RateLimiter.bucketAt, gone, found, Option.getD_none, Option.getD_some, f.ipRate,
      f.ipBurst]
    exact (allow_idle sound (f.valid.bucket _ b found) idle).symm

theorem Forgets.allow {now : Int} (f : Forgets c now l l') (sound : c.Sound) (ip : Ip6) :
    (l.allow ip now).1 = (l'.allow ip now).1 ∧
      Forgets c now (l.allow ip now).2 (l'.allow ip now).2 := by
  have charged := f.bucketAt sound ip
  have kept := f.valid.allow sound ip now
  rw [allow_eq] at kept
  rw [allow_eq, allow_eq, charged, f.global]
  refine ⟨rfl, kept, f.ipRate, f.ipBurst, rfl, fun ip' => ?_⟩
  simp only [Std.ExtTreeMap.getElem?_insert]
  split
  · exact .inl rfl
  · exact f.bucket ip'

theorem Forgets.decisions {now : Int} {calls : List (Int × Call)} (f : Forgets c now l l')
    (sound : c.Sound) (sorted : calls.Pairwise fun a a' => a.1 ≤ a'.1)
    (later : ∀ a ∈ calls, now ≤ a.1) : l.decisions calls = answers ask l' (asked calls) := by
  induction calls generalizing now l l' with
  | nil => rfl
  | cons a calls ih =>
      obtain ⟨least, rest⟩ := List.pairwise_cons.mp sorted
      obtain ⟨now', call⟩ := a
      have f := f.later (later _ (List.mem_cons_self ..))
      cases call with
      | allow ip =>
          obtain ⟨same, f⟩ := f.allow sound ip
          rw [RateLimiter.decisions, ih f rest least, same]
          rfl
      | evict => exact ih f.evict rest least

theorem forgets_new (sound : c.Sound) (now : Int) : Forgets c now (new c) (new c) :=
  ⟨valid_new sound, rfl, rfl, rfl, fun _ => .inl rfl⟩

/-- The answers of a run with evictions, as those of the limiter that is only asked. -/
theorem decisions_eq (sound : c.Sound) {calls : List (Int × Call)}
    (sorted : calls.Pairwise fun a a' => a.1 ≤ a'.1) :
    (new c).decisions calls = answers ask (new c) (asked calls) := by
  cases calls with
  | nil => rfl
  | cons a calls =>
      refine (forgets_new sound a.1).decisions sound sorted fun a' ha' => ?_
      rcases List.mem_cons.mp ha' with rfl | ha'
      · exact le_rfl
      · exact (List.pairwise_cons.mp sorted).1 a' ha'

theorem asked_filter (calls : List (Int × Call)) :
    asked (calls.filter (·.2 ≠ .evict)) = asked calls := by
  induction calls with
  | nil => rfl
  | cons a calls ih =>
      obtain ⟨now, call⟩ := a
      cases call with
      | allow ip => simpa [asked] using ih
      | evict => simpa [asked] using ih

theorem asked_sorted {calls : List (Int × Call)}
    (sorted : calls.Pairwise fun a a' => a.1 ≤ a'.1) :
    (asked calls).Pairwise fun a a' => a.1 ≤ a'.1 := by
  refine sorted.filterMap _ ?_
  rintro ⟨now, call⟩ ⟨now', call'⟩ le b hb b' hb'
  cases call <;> cases hb
  cases call' <;> cases hb'
  exact le

/-- The calls allowed between two times, of one address or of all. -/
def admitted (ds : List ((Int × Ip6) × Bool)) (from? : Ip6 → Bool) (lo hi : Int) : Nat :=
  ds.countP fun d => d.2 && from? d.1.2 && decide (lo ≤ d.1.1 ∧ d.1.1 ≤ hi)

/-- Whatever the calls, in every window of `w` ms an address and all of them together stay
within a burst and what the rate adds, and forgetting idle buckets changes no answer. -/
theorem rate_limits (sound : c.Sound) {calls : List (Int × Call)}
    (sorted : calls.Pairwise fun a a' => a.1 ≤ a'.1) :
    (∀ (ip : Ip6) (lo : Int) (w : Nat),
      (admitted ((new c).decisions calls) (· = ip) lo (lo + w) : ℚ) ≤
        c.ipBurst + c.ipRate * w / 1000) ∧
    (∀ (lo : Int) (w : Nat),
      (admitted ((new c).decisions calls) (fun _ => true) lo (lo + w) : ℚ) ≤
        c.globalBurst + c.globalRate * w / 1000) ∧
    (new c).decisions calls = (new c).decisions (calls.filter (·.2 ≠ .evict)) := by
  have times := asked_sorted sorted
  have valid := valid_new sound
  have span : ∀ (lo : Int) (w : Nat), lo ≤ lo + w := fun lo w => by omega
  have scaled : ∀ (rate : ℚ) (lo : Int) (w : Nat),
      rate / 1000 * ((lo + w - lo : Int) : ℚ) = rate * w / 1000 := fun rate lo w => by
    push_cast
    ring
  refine ⟨fun ip lo w => ?_, fun lo w => ?_, ?_⟩
  · have bound := (ip_budget sound ip).window_le valid times (span lo w)
    rw [decisions_eq sound sorted, ← scaled c.ipRate lo w]
    exact bound
  · have bound := (global_budget sound).window_le valid times (span lo w)
    rw [decisions_eq sound sorted, ← scaled c.globalRate lo w]
    exact bound
  · rw [decisions_eq sound sorted, decisions_eq sound (sorted.filter _), asked_filter]

/-- One address, an hour apart with an eviction between. -/
theorem rate_limits_suggested :
    let ip : Ip6 := ByteArr.zero 16
    (admitted ((new suggested).decisions
        [(0, .allow ip), (3000000, .evict), (3600000, .allow ip)]) (· = ip) 0 (0 + 3600000) : ℚ) ≤
      suggested.ipBurst + suggested.ipRate * 3600000 / 1000 :=
  (rate_limits suggested_sound (by simp)).1 (ByteArr.zero 16) 0 3600000

end RateLimiter
end Splice.Server
