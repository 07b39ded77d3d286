import Mathlib

/-! # Login lockout — the rate limiter over whole call histories

`LoginRateLimiter` counts failures per key and forgets entries inside `check`.  `Locked` says
what it is for over the history of calls alone; the state is related to it from both sides, by
`Remembers` (nothing is lost, unless the map is cleared) and `Founded` (nothing is made up,
unless an old entry is taken up again). -/

namespace LoginLimiter

open List Option

/-! ## The limiter -/

/-- Milliseconds as an `i64`. -/
abbrev Time := { t : Int // -(2 ^ 63) ≤ t ∧ t < 2 ^ 63 }

def saturate (n : Int) : Int := max (-(2 ^ 63)) (min (2 ^ 63 - 1) n)

structure LoginAttempt where
  failures : Nat
  (blockedUntil lastAttempt : Int)

/-- A hash map: each key once, in no order that matters. -/
structure LoginRateLimiter where
  entries : List (String × LoginAttempt)
  distinct : (entries.map (·.1)).Nodup

def LoginRateLimiter.empty : LoginRateLimiter := ⟨[], nodup_nil⟩

def LoginRateLimiter.get (s : LoginRateLimiter) (key : String) : Option LoginAttempt :=
  s.entries.lookup key

def retention : Int := 15 * 60 * 1000

/-- The entries that `check` keeps. -/
def isRecent (now : Time) (a : LoginAttempt) : Bool := saturate (now - a.lastAttempt) < retention

def LoginRateLimiter.retain (s : LoginRateLimiter) (keep : LoginAttempt → Bool) : LoginRateLimiter :=
  ⟨s.entries.filter fun e => keep e.2, s.distinct.sublist (filter_sublist.map _)⟩

/-- `check` up to its verdict: entries go. -/
def LoginRateLimiter.prune (s : LoginRateLimiter) (now : Time) : LoginRateLimiter :=
  let kept := s.retain (isRecent now)
  if 4096 < kept.entries.length then .empty else kept

/-- Whether `check` answers `RateLimited`. -/
def LoginRateLimiter.check (s : LoginRateLimiter) (key : String) (now : Time) : Bool :=
  ((s.prune now).get key).any fun a => now.1 < a.blockedUntil

def delaySeconds (failures : Nat) : Int := if failures < 5 then 0 else 2 ^ min (failures - 5) 4

/-- One more failure; the counter saturates. -/
def bump (a : LoginAttempt) (now : Time) : LoginAttempt :=
  let failures := min (a.failures + 1) (2 ^ 32 - 1)
  ⟨failures, saturate (now + delaySeconds failures * 1000), now⟩

def LoginRateLimiter.remove (s : LoginRateLimiter) (key : String) : LoginRateLimiter :=
  ⟨s.entries.filter fun e => e.1 ≠ key, s.distinct.sublist (filter_sublist.map _)⟩

/-- `record_failure`. -/
def LoginRateLimiter.failure (s : LoginRateLimiter) (key : String) (now : Time) : LoginRateLimiter where
  entries := (key, bump ((s.get key).getD ⟨0, 0, now⟩) now) :: (s.remove key).entries
  distinct := by
    refine nodup_cons.mpr ⟨?_, (s.remove key).distinct⟩
    intro hmem
    obtain ⟨e, he, heq⟩ := mem_map.mp hmem
    exact of_decide_eq_true (mem_filter.mp he).2 heq

inductive Call where
  | check (key : String) (now : Time)
  | failure (key : String) (now : Time)
  | success (key : String)

def Call.time? : Call → Option Time
  | .check _ now | .failure _ now => some now
  | .success _ => none

def step (s : LoginRateLimiter) : Call → LoginRateLimiter
  | .check _ now => s.prune now
  | .failure key now => s.failure key now
  | .success key => s.remove key

def run (calls : List Call) : LoginRateLimiter := calls.foldl step .empty

/-! ## What the history says -/

/-- A key's failures since its last success. -/
def record (key : String) (times : List Time) : Call → List Time
  | .check _ _ => times
  | .failure key' now => if key' = key then now :: times else times
  | .success key' => if key' = key then [] else times

def failures (key : String) (calls : List Call) : List Time := calls.foldl (record key) []

/-- How many failures follow within the retention. -/
def streak : List Time → Nat
  | [] => 0
  | [_] => 1
  | t :: t' :: rest => if t.1 - t'.1 < retention then streak (t' :: rest) + 1 else 1

/-- Five failures in a row, and the delay is not over. -/
def Locked (key : String) (calls : List Call) (now : Time) : Prop :=
  ∃ t rest, failures key calls = t :: rest ∧ 5 ≤ streak (t :: rest) ∧ t.1 ≤ now.1 ∧
    now.1 < t.1 + 1000 * 2 ^ min (streak (t :: rest) - 5) 4

/-- Calls in time order, none after `now`. -/
def Ordered (calls : List Call) (now : Time) : Prop :=
  (calls.filterMap Call.time?).Pairwise (fun t u => t.1 ≤ u.1) ∧
    ∀ t ∈ calls.filterMap Call.time?, t.1 ≤ now.1

/-- Every call meets a condition on its state. -/
def Along (P : LoginRateLimiter → Call → Prop) (calls : List Call) : Prop :=
  ∀ before call after, calls = before ++ call :: after → P (run before) call

/-- A check that finds at most 4096 recent keys. -/
def Uncrowded (s : LoginRateLimiter) : Call → Prop
  | .check _ now => (s.retain (isRecent now)).entries.length ≤ 4096
  | _ => True

/-- No failure takes up an older entry. -/
def Timely (key : String) (s : LoginRateLimiter) : Call → Prop
  | .failure key' now => key' = key → ∀ a ∈ s.get key, isRecent now a
  | _ => True

/-! ## Entries -/

section Entries

variable {s : LoginRateLimiter} {key key' : String} {now : Time} {a : LoginAttempt}
  {entries : List (String × LoginAttempt)}

theorem lookup_filter_value (keep : LoginAttempt → Bool) (h : (entries.map (·.1)).Nodup) :
    (entries.filter fun e => keep e.2).lookup key = (entries.lookup key).filter keep := by
  induction entries with
  | nil => rfl
  | cons e entries ih =>
    obtain ⟨k, a⟩ := e
    obtain ⟨hfresh, hrest⟩ := nodup_cons.mp h
    rw [filter_cons, lookup_cons]
    by_cases hk : key = k
    · -- the key stands here and nowhere else
      subst hk
      have hnone : entries.lookup key = none := by
        refine lookup_eq_none_iff.mpr fun e he => bne_iff_ne.mpr ?_
        intro heq
        exact hfresh (mem_map.mpr ⟨e, he, heq.symm⟩)
      cases hkeep : keep a with
      | true => simp [Option.filter, hkeep]
      | false => simp [Option.filter, hkeep, ih hrest, hnone]
    · rw [beq_eq_false_iff_ne.mpr hk]
      cases hkeep : keep a with
      | true => simp [lookup_cons, beq_eq_false_iff_ne.mpr hk, ih hrest]
      | false => simp [ih hrest]

theorem lookup_filter_key : (entries.filter fun e => e.1 ≠ key').lookup key =
      if key = key' then none else entries.lookup key := by
  induction entries with
  | nil => simp
  | cons e entries ih =>
    obtain ⟨k, a⟩ := e
    rw [filter_cons, lookup_cons]
    by_cases hk : k = key'
    · subst hk
      rw [if_neg (by simp), ih]
      split_ifs with hkey
      · rfl
      · rw [beq_eq_false_iff_ne.mpr hkey]
    · rw [if_pos (by simpa using hk), lookup_cons, ih]
      split_ifs with hkey
      · subst hkey
        rw [beq_eq_false_iff_ne.mpr fun heq => hk heq.symm]
      · rfl

theorem get_retain (keep : LoginAttempt → Bool) : (s.retain keep).get key = (s.get key).filter keep :=
  lookup_filter_value keep s.distinct

theorem get_remove : (s.remove key').get key = if key = key' then none else s.get key :=
  lookup_filter_key

theorem get_failure : (s.failure key' now).get key =
    if key = key' then some (bump ((s.get key).getD ⟨0, 0, now⟩) now) else s.get key := by
  show ((key', bump ((s.get key').getD ⟨0, 0, now⟩) now) :: (s.remove key').entries).lookup key = _
  rw [lookup_cons]
  split_ifs with hkey
  · subst hkey
    rw [beq_self_eq_true]
  · rw [beq_eq_false_iff_ne.mpr hkey]
    exact get_remove.trans (if_neg hkey)

/-- What is left after a check was there before. -/
theorem get_prune (h : (s.prune now).get key = some a) : s.get key = some a ∧ isRecent now a := by
  unfold LoginRateLimiter.prune at h
  simp only at h
  split_ifs at h
  · cases h
  · rw [get_retain, filter_eq_some_iff] at h
    exact h

/-- A check of few entries keeps the recent ones. -/
theorem get_prune_uncrowded (h : (s.retain (isRecent now)).entries.length ≤ 4096) :
    (s.prune now).get key = (s.get key).filter (isRecent now) := by
  unfold LoginRateLimiter.prune
  rw [if_neg (Nat.not_lt.mpr h), get_retain]

theorem check_blocked (h : s.check key now) :
    ∃ a, (s.prune now).get key = some a ∧ now.1 < a.blockedUntil := by
  unfold LoginRateLimiter.check at h
  cases hget : (s.prune now).get key with
  | none =>
    rw [hget] at h
    cases h
  | some a =>
    rw [hget] at h
    exact ⟨a, rfl, of_decide_eq_true h⟩

end Entries

/-! ## Delays -/

section Delays

variable {f g : Nat}

theorem delaySeconds_mono (h : f ≤ g) : delaySeconds f ≤ delaySeconds g := by
  unfold delaySeconds
  split_ifs with hf hg
  · exact le_refl 0
  · exact Int.pow_nonneg (by decide)
  · omega
  · exact_mod_cast Nat.pow_le_pow_right (by decide) (by omega : min (f - 5) 4 ≤ min (g - 5) 4)

theorem delaySeconds_bounds (f : Nat) : 0 ≤ delaySeconds f ∧ delaySeconds f ≤ 16 := by
  have hlow : delaySeconds 0 ≤ delaySeconds f := delaySeconds_mono (Nat.zero_le f)
  have hhigh : delaySeconds f ≤ delaySeconds (max f 9) := delaySeconds_mono (Nat.le_max_left f 9)
  have hlast : delaySeconds (max f 9) = 16 := by
    unfold delaySeconds
    rw [if_neg (by omega), show min (max f 9 - 5) 4 = 4 by omega]
    rfl
  exact ⟨hlow, hlast ▸ hhigh⟩

/-- Saturation does not shorten a delay. -/
theorem delaySeconds_saturated (f : Nat) : delaySeconds (min f (2 ^ 32 - 1)) = delaySeconds f := by
  rcases Nat.lt_or_ge f (2 ^ 32) with h | h
  · rw [Nat.min_eq_left (by omega)]
  · unfold delaySeconds
    rw [if_neg (by omega), if_neg (by omega), Nat.min_eq_right (by omega), Nat.min_eq_right (by omega)]

theorem delaySeconds_pos (h : 0 < delaySeconds f) : 5 ≤ f := by
  unfold delaySeconds at h
  split_ifs at h with hf
  · exact absurd h (by decide)
  · omega

theorem delaySeconds_eq (h : 5 ≤ f) : delaySeconds f * 1000 = 1000 * 2 ^ min (f - 5) 4 := by
  unfold delaySeconds
  rw [if_neg (by omega), Int.mul_comm]

end Delays

/-! ## The state and the history -/

section Histories

variable {calls : List Call} {c : Call} {key : String} {now : Time} {s : LoginRateLimiter}

theorem run_concat (calls : List Call) (c : Call) : run (calls ++ [c]) = step (run calls) c :=
  foldl_concat ..

theorem failures_concat (key : String) (calls : List Call) (c : Call) :
    failures key (calls ++ [c]) = record key (failures key calls) c :=
  foldl_concat ..

variable {P : LoginRateLimiter → Call → Prop} {t : Time}

theorem along_concat : Along P (calls ++ [c]) ↔ Along P calls ∧ P (run calls) c := by
  constructor
  · intro h
    refine ⟨fun before call after heq => ?_, h calls c [] rfl⟩
    refine h before call (after ++ [c]) ?_
    rw [heq, append_assoc, cons_append]
  · rintro ⟨hcalls, hlast⟩ before call after heq
    -- the call is the last one, or one of the others
    rcases eq_nil_or_concat after with rfl | ⟨after', c', rfl⟩
    · obtain ⟨rfl, hc⟩ := append_inj' heq rfl
      exact (singleton_inj.mp hc) ▸ hlast
    · rw [concat_eq_append, ← cons_append, ← append_assoc] at heq
      exact hcalls before call after' (append_inj' heq rfl).1

theorem Ordered.concat (h : Ordered (calls ++ [c]) now) :
    Ordered calls now ∧ ∀ t ∈ c.time?, Ordered calls t ∧ t.1 ≤ now.1 := by
  obtain ⟨hpairs, hbound⟩ := h
  rw [filterMap_append] at hpairs hbound
  obtain ⟨hcalls, _, hacross⟩ := pairwise_append.mp hpairs
  refine ⟨⟨hcalls, fun t ht => hbound t (mem_append_left _ ht)⟩, fun t ht => ?_⟩
  have hmem : t ∈ [c].filterMap Call.time? := mem_filterMap.mpr ⟨c, mem_singleton_self c, ht⟩
  exact ⟨⟨hcalls, fun u hu => hacross u hu t hmem⟩, hbound t (mem_append_right _ hmem)⟩

/-- The last failure's entry: when, and how long it blocks. -/
structure EntryOf (t : Time) (a : LoginAttempt) : Prop where
  last : a.lastAttempt = t.1
  blocked : a.blockedUntil = saturate (t.1 + delaySeconds a.failures * 1000)

theorem bump_entry (a : LoginAttempt) (now : Time) : EntryOf now (bump a now) := ⟨rfl, rfl⟩

/-- The entry counts the streak, until it is too old. -/
def Remembers (key : String) (calls : List Call) (s : LoginRateLimiter) : Prop :=
  ∀ t rest, failures key calls = t :: rest →
    (∃ a, s.get key = some a ∧ EntryOf t a ∧ min (streak (t :: rest)) (2 ^ 32 - 1) ≤ a.failures) ∨
      ∀ now, Ordered calls now → retention ≤ now.1 - t.1

/-- Only failures of the streak are counted. -/
def Founded (key : String) (calls : List Call) (s : LoginRateLimiter) : Prop :=
  ∀ a, s.get key = some a →
    ∃ t rest, failures key calls = t :: rest ∧ EntryOf t a ∧ a.failures ≤ streak (t :: rest)

theorem streak_pos (t : Time) (rest : List Time) : 1 ≤ streak (t :: rest) := by
  cases rest with
  | nil => exact Nat.le_refl 1
  | cons t' rest =>
    unfold streak
    split_ifs
    · exact Nat.le_add_left 1 _
    · exact Nat.le_refl 1

theorem isRecent_iff {a : LoginAttempt} (h : EntryOf t a) :
    isRecent now a ↔ now.1 - t.1 < retention := by
  unfold isRecent saturate retention
  rw [decide_eq_true_iff, h.last]
  omega

/-- **STEP**, from the history to the state. -/
theorem Remembers.step (h : Remembers key calls s) (hordered : Ordered (calls ++ [c]) now)
    (hcrowd : Uncrowded s c) : Remembers key (calls ++ [c]) (step s c) := by
  intro t rest heq
  rw [failures_concat] at heq
  -- what is too old stays too old
  have hold : (∀ u, Ordered calls u → retention ≤ u.1 - t.1) →
      ∀ u, Ordered (calls ++ [c]) u → retention ≤ u.1 - t.1 := fun hall u hu => hall u hu.concat.1
  cases c with
  | check key' now' =>
    rcases h t rest heq with ⟨a, hget, hentry, hcount⟩ | hlate
    · by_cases hrecent : isRecent now' a
      · refine .inl ⟨a, ?_, hentry, hcount⟩
        show (s.prune now').get key = some a
        rw [get_prune_uncrowded hcrowd, hget, filter_some_pos hrecent]
      · refine .inr fun u hu => ?_
        have hle : now'.1 ≤ u.1 := (hu.concat.2 now' rfl).2
        rw [isRecent_iff hentry] at hrecent
        omega
    · exact .inr (hold hlate)
  | failure key' now' =>
    by_cases hkey : key' = key
    · subst hkey
      have htimes : now' :: failures key' calls = t :: rest := (if_pos rfl).symm.trans heq
      obtain ⟨rfl, rfl⟩ := List.cons.inj htimes
      refine .inl ⟨_, get_failure.trans (if_pos rfl), bump_entry _ _, ?_⟩
      show _ ≤ min (((s.get key').getD ⟨0, 0, now'⟩).failures + 1) (2 ^ 32 - 1)
      cases hprevious : failures key' calls with
      | nil =>
        have hone : streak [now'] = 1 := rfl
        omega
      | cons t' rest' =>
        unfold streak
        split_ifs with hgap
        · rcases h t' rest' hprevious with ⟨a, hget, _, hcount⟩ | hlate
          · rw [hget, getD_some]
            omega
          · have hnow := hlate now' (hordered.concat.2 now' rfl).1
            omega
        · omega
    · have htimes : failures key calls = t :: rest := (if_neg hkey).symm.trans heq
      have hget : (s.failure key' now').get key = s.get key :=
        get_failure.trans (if_neg fun heq => hkey heq.symm)
      rcases h t rest htimes with ⟨a, ha, hrest⟩ | hlate
      · exact .inl ⟨a, hget.trans ha, hrest⟩
      · exact .inr (hold hlate)
  | success key' =>
    by_cases hkey : key' = key
    · have htimes : [] = t :: rest := (if_pos hkey).symm.trans heq
      cases htimes
    · have htimes : failures key calls = t :: rest := (if_neg hkey).symm.trans heq
      have hget : (s.remove key').get key = s.get key :=
        get_remove.trans (if_neg fun heq => hkey heq.symm)
      rcases h t rest htimes with ⟨a, ha, hrest⟩ | hlate
      · exact .inl ⟨a, hget.trans ha, hrest⟩
      · exact .inr (hold hlate)

/-- **STEP**, from the state to the history. -/
theorem Founded.step (h : Founded key calls s) (htimely : Timely key s c) :
    Founded key (calls ++ [c]) (step s c) := by
  intro a hget
  rw [failures_concat]
  cases c with
  | check key' now' => exact h a (get_prune hget).1
  | failure key' now' =>
    have hget' : (s.failure key' now').get key = some a := hget
    rw [get_failure] at hget'
    by_cases hkey : key' = key
    · subst hkey
      rw [if_pos rfl] at hget'
      obtain rfl := Option.some.inj hget'
      refine ⟨now', failures key' calls, if_pos rfl, bump_entry _ _, ?_⟩
      show min (((s.get key').getD ⟨0, 0, now'⟩).failures + 1) (2 ^ 32 - 1) ≤ _
      cases hentry : s.get key' with
      | none =>
        have hpos := streak_pos now' (failures key' calls)
        show min (0 + 1) (2 ^ 32 - 1) ≤ _
        omega
      | some b =>
        obtain ⟨t, rest, hprevious, hof, hcount⟩ := h b hentry
        have hgap := (isRecent_iff hof).mp (htimely rfl b hentry)
        rw [hprevious, getD_some]
        unfold streak
        rw [if_pos hgap]
        omega
    · rw [if_neg fun heq => hkey heq.symm] at hget'
      obtain ⟨t, rest, hprevious, hrest⟩ := h a hget'
      exact ⟨t, rest, (if_neg hkey).trans hprevious, hrest⟩
  | success key' =>
    have hget' : (s.remove key').get key = some a := hget
    rw [get_remove] at hget'
    split_ifs at hget' with hkey
    obtain ⟨t, rest, hprevious, hrest⟩ := h a hget'
    exact ⟨t, rest, (if_neg fun heq => hkey heq.symm).trans hprevious, hrest⟩

/-- **RUN**, from the history to the state. -/
theorem remembers_run (hordered : Ordered calls now) (hcrowd : Along Uncrowded calls) :
    Remembers key calls (run calls) := by
  induction calls using List.reverseRecOn generalizing now with
  | nil => exact fun _ _ heq => (nomatch heq)
  | append_singleton calls c ih =>
    obtain ⟨hbefore, hlast⟩ := along_concat.mp hcrowd
    rw [run_concat]
    exact (ih hordered.concat.1 hbefore).step hordered hlast

/-- **RUN**, from the state to the history. -/
theorem founded_run (htimely : Along (Timely key) calls) : Founded key calls (run calls) := by
  induction calls using List.reverseRecOn with
  | nil => exact nofun
  | append_singleton calls c ih =>
    obtain ⟨hbefore, hlast⟩ := along_concat.mp htimely
    rw [run_concat]
    exact (ih hbefore).step hlast

/-- Failures are calls. -/
theorem mem_failures (h : t ∈ failures key calls) : t ∈ calls.filterMap Call.time? := by
  induction calls using List.reverseRecOn with
  | nil => cases h
  | append_singleton calls c ih =>
    rw [failures_concat] at h
    rw [filterMap_append]
    cases c with
    | check _ _ => exact mem_append_left _ (ih h)
    | failure key' now' =>
      simp only [record] at h
      split_ifs at h
      · rcases mem_cons.mp h with rfl | h
        · exact mem_append_right _ (mem_singleton_self _)
        · exact mem_append_left _ (ih h)
      · exact mem_append_left _ (ih h)
    | success key' =>
      simp only [record] at h
      split_ifs at h
      · cases h
      · exact mem_append_left _ (ih h)

/-- **LOCKOUT**: an uncrowded limiter refuses a locked key, and only such keys unless a failure
    takes up an old entry. -/
theorem lockout (calls : List Call) (key : String) (now : Time) (hordered : Ordered calls now) :
    (Along Uncrowded (calls ++ [.check key now]) → now.1 < 2 ^ 63 - 1 → Locked key calls now →
      (run calls).check key now) ∧
    (Along (Timely key) calls → (run calls).check key now → Locked key calls now) := by
  constructor
  · rintro hcrowd hmax ⟨t, rest, htimes, hfive, hstart, hend⟩
    obtain ⟨hbefore, hlast⟩ := along_concat.mp hcrowd
    rw [← delaySeconds_eq hfive] at hend
    obtain ⟨hzero, hsixteen⟩ := delaySeconds_bounds (streak (t :: rest))
    rcases remembers_run hordered hbefore t rest htimes with ⟨a, hget, hentry, hcount⟩ | hlate
    · have hrecent : isRecent now a := by
        rw [isRecent_iff hentry]
        unfold retention
        omega
      have hdelay : delaySeconds (streak (t :: rest)) ≤ delaySeconds a.failures :=
        delaySeconds_saturated (streak (t :: rest)) ▸ delaySeconds_mono hcount
      have hblocked : now.1 < a.blockedUntil := by
        rw [hentry.blocked]
        unfold saturate
        omega
      unfold LoginRateLimiter.check
      rw [get_prune_uncrowded hlast, hget, filter_some_pos hrecent]
      exact decide_eq_true hblocked
    · have hnow := hlate now hordered
      unfold retention at hnow
      omega
  · intro htimely hcheck
    obtain ⟨a, hget, hblocked⟩ := check_blocked hcheck
    obtain ⟨t, rest, htimes, hentry, hcount⟩ := founded_run htimely a (get_prune hget).1
    have hstart : t.1 ≤ now.1 := hordered.2 t (mem_failures (htimes ▸ mem_cons_self))
    have hend : now.1 < t.1 + delaySeconds a.failures * 1000 := by
      rw [hentry.blocked] at hblocked
      unfold saturate at hblocked
      omega
    have hfive : 5 ≤ streak (t :: rest) :=
      Nat.le_trans (delaySeconds_pos (by omega : 0 < delaySeconds a.failures)) hcount
    have hdelay := delaySeconds_mono hcount
    refine ⟨t, rest, htimes, hfive, hstart, ?_⟩
    rw [← delaySeconds_eq hfive]
    omega

end Histories

/-! ## Histories that go wrong, and one that does not -/

def minutes (n : Nat) (h : n ≤ 1000) : Time := ⟨n * 60000, by omega, by omega⟩

def start : Time := minutes 0 (by decide)

/-- Five failures of one key at one time. -/
def fiveFailures : List Call := List.replicate 5 (.failure "" start)

/-- A failure of each of `n` other keys. -/
def crowd (n : Nat) : List Call :=
  (List.range n).map fun i => .failure (String.ofList (List.replicate (i + 1) 'x')) start

theorem crowd_succ (n : Nat) : fiveFailures ++ crowd (n + 1) =
    (fiveFailures ++ crowd n) ++ [.failure (String.ofList (List.replicate (n + 1) 'x')) start] := by
  unfold crowd
  rw [range_succ, map_append]
  rfl

/-- The crowd adds an entry per key. -/
theorem crowd_entries (n : Nat) : (run (fiveFailures ++ crowd n)).entries.length = n + 1 ∧
      (∀ e ∈ (run (fiveFailures ++ crowd n)).entries, e.1.length ≤ n ∧ e.2.lastAttempt = start.1) ∧
      failures "" (fiveFailures ++ crowd n) = List.replicate 5 start := by
  induction n with
  | zero =>
    exact ⟨by decide, by decide, by decide⟩
  | succ n ih =>
    obtain ⟨hlength, hentries, hfailures⟩ := ih
    have hkey : (String.ofList (List.replicate (n + 1) 'x')).length = n + 1 := by simp
    -- the longer key is new
    have hfresh : ((run (fiveFailures ++ crowd n)).remove
        (String.ofList (List.replicate (n + 1) 'x'))).entries = (run (fiveFailures ++ crowd n)).entries := by
      refine filter_eq_self.mpr fun e he => decide_eq_true fun heq => ?_
      have hle := (hentries e he).1
      rw [heq] at hle
      omega
    rw [crowd_succ, run_concat, failures_concat]
    refine ⟨?_, ?_, ?_⟩
    · show (_ :: (LoginRateLimiter.remove _ _).entries).length = _
      rw [hfresh, length_cons, hlength]
    · intro e he
      rcases mem_cons.mp he with rfl | he
      · exact ⟨Nat.le_of_eq hkey, rfl⟩
      · have hmem := hentries e (hfresh ▸ he)
        exact ⟨Nat.le_succ_of_le hmem.1, hmem.2⟩
    · refine (if_neg fun heq => ?_).trans hfailures
      rw [heq] at hkey
      cases hkey

/-- The check after a large crowd clears the map. -/
theorem crowd_check {n : Nat} (h : 4096 ≤ n) : (run (fiveFailures ++ crowd n)).check "" start = false := by
  obtain ⟨hlength, hentries, -⟩ := crowd_entries n
  have hall : ((run (fiveFailures ++ crowd n)).retain (isRecent start)).entries =
      (run (fiveFailures ++ crowd n)).entries := by
    refine filter_eq_self.mpr fun e he => ?_
    unfold isRecent
    rw [(hentries e he).2]
    decide
  have hprune : (run (fiveFailures ++ crowd n)).prune start = .empty := by
    unfold LoginRateLimiter.prune
    rw [if_pos (by rw [hall]; omega)]
  unfold LoginRateLimiter.check
  rw [hprune]
  rfl

/-- 4096 keys open a locked one; rare failures lock. -/
theorem lockout_evaded : (Locked "" (fiveFailures ++ crowd 4096) start ∧
      (run (fiveFailures ++ crowd 4096)).check "" start = false) ∧
    let calls : List Call := [.failure "a" start, .failure "a" (minutes 20 (by decide)),
      .failure "a" (minutes 40 (by decide)), .failure "a" (minutes 60 (by decide)),
      .failure "a" (minutes 80 (by decide))]
    (run calls).check "a" (minutes 80 (by decide)) ∧
      ¬ Locked "a" calls (minutes 80 (by decide)) := by
  refine ⟨⟨⟨start, List.replicate 4 start, (crowd_entries 4096).2.2, by decide, by decide, by decide⟩, ?_⟩, by decide, ?_⟩
  · exact crowd_check (Nat.le_refl 4096)
  · rintro ⟨t, rest, htimes, hfive, -, -⟩
    rw [← htimes] at hfive
    exact absurd hfive (by decide)

/-- Five failures at once lock the key for a second. -/
theorem lockout_five : (run fiveFailures).check "" start := by
  have hordered : Ordered fiveFailures start := by
    constructor
    · decide
    · decide
  refine (lockout fiveFailures "" start hordered).1 ?_ (by decide)
    ⟨start, List.replicate 4 start, by decide, by decide, by decide, by decide⟩
  -- failures crowd nothing, and the check finds one entry
  have hfailures : ∀ n, Along Uncrowded (List.replicate n (.failure "" start)) := by
    intro n
    induction n with
    | zero => exact fun _ _ _ heq => absurd heq.symm (by simp)
    | succ n ih =>
      rw [replicate_succ', along_concat]
      exact ⟨ih, trivial⟩
  refine along_concat.mpr ⟨hfailures 5, ?_⟩
  show ((run fiveFailures).retain (isRecent start)).entries.length ≤ 4096
  decide

end LoginLimiter
