import Mathlib.Tactic

/-!
# Admission of votes

Every vote in flight holds a ticket. The counters behind the tickets are changed under one
mutex, when a ticket is acquired and when it is destroyed, so a history of the threads is a
list of these steps.
-/

namespace FlonCore

open List UInt64 Function
structure VoteAdmission where
  globalLimit : UInt64 := 10000
  peerLimit : UInt64 := 2500
  localLimit : UInt64 := 256

namespace VoteAdmission

@[ext]
structure Counts where
  remote : UInt64 := 0
  localVotes : UInt64 := 0
  peers : UInt32 → Option UInt64 := fun _ => none

inductive Answer
  | ticket
  | refused
  /-- an allocation throws -/
  | badAlloc
  deriving DecidableEq

/-- Which of the allocations inside a call of `acquire` would fail. -/
structure Allocator where
  reservationFails : Bool := false
  entryFails : Bool := false

/-- Peer 0 is the node itself. -/
def LimitReached (a : VoteAdmission) (c : Counts) (peer : UInt32) : Prop :=
  if peer = 0 then a.localLimit ≤ c.localVotes
  else a.globalLimit ≤ c.remote ∨ ∃ n ∈ c.peers peer, a.peerLimit ≤ n

instance (a : VoteAdmission) (c : Counts) (peer : UInt32) : Decidable (a.LimitReached c peer) := by
  unfold LimitReached
  infer_instance

def Counts.increment (c : Counts) (peer : UInt32) : Counts :=
  if peer = 0 then { c with localVotes := c.localVotes + 1 }
  else { c with
    peers := update c.peers peer (some ((c.peers peer).getD 0 + 1))
    remote := c.remote + 1 }

def acquire (a : VoteAdmission) (c : Counts) (peer : UInt32) (alloc : Allocator) :
    Answer × Counts :=
  if a.LimitReached c peer then (.refused, c)
  else if alloc.reservationFails then (.badAlloc, c)
  -- only a new entry of the map is allocated
  else if peer ≠ 0 ∧ c.peers peer = none ∧ alloc.entryFails then (.badAlloc, c)
  else (.ticket, c.increment peer)

/-- The destructor of an active reservation. Without an entry for the peer it would dereference
the end of the map: that is `none`. -/
def Counts.release (c : Counts) (peer : UInt32) : Option Counts :=
  if peer = 0 then some { c with localVotes := c.localVotes - 1 }
  else
    (c.peers peer).map fun n =>
      { c with
        remote := c.remote - 1
        peers := update c.peers peer (if n - 1 = 0 then none else some (n - 1)) }

/-- The shared counters, and the peer of every ticket that is alive. -/
structure System where
  counts : Counts := {}
  live : List UInt32 := []

inductive Step
  | acquire (peer : UInt32) (alloc : Allocator)
  | release (i : ℕ)

def step (a : VoteAdmission) (s : System) : Step → Option System
  | .acquire peer alloc =>
    match a.acquire s.counts peer alloc with
    | (.ticket, c) => some ⟨c, peer :: s.live⟩
    | (_, c) => some ⟨c, s.live⟩
  | .release i =>
    match s.live[i]? with
    | none => some s
    | some peer => (s.counts.release peer).map fun c => ⟨c, s.live.eraseIdx i⟩

def remoteTickets (live : List UInt32) : ℕ := live.countP (· ≠ 0)

/-- What the counters are for: the numbers of live tickets. -/
def Counts.ofLive (live : List UInt32) : Counts where
  remote := .ofNat (remoteTickets live)
  localVotes := .ofNat (live.count 0)
  peers p := if p = 0 ∨ p ∉ live then none else some (.ofNat (live.count p))

structure WithinLimits (a : VoteAdmission) (live : List UInt32) : Prop where
  localVotes : live.count 0 ≤ a.localLimit.toNat
  remote : remoteTickets live ≤ a.globalLimit.toNat
  peers : ∀ p, p ≠ 0 → live.count p ≤ a.peerLimit.toNat

variable {a : VoteAdmission} {peer : UInt32} {live live' : List UInt32}

theorem Counts.ofLive_perm (h : live.Perm live') : ofLive live = ofLive live' := by
  simp only [ofLive, remoteTickets, h.count_eq, h.countP_eq, h.mem_iff]

theorem Counts.increment_ofLive : (ofLive live).increment peer = ofLive (peer :: live) := by
  by_cases hpeer : peer = 0
  · subst hpeer
    rw [increment, if_pos rfl]
    refine Counts.ext (by simp [ofLive, remoteTickets]) (by simp [ofLive, ofNat_add])
      (funext fun p => ?_)
    by_cases hp : p = 0
    · simp [ofLive, hp]
    · simp [ofLive, hp, Ne.symm hp]
  · rw [increment, if_neg hpeer]
    refine Counts.ext (by simp [ofLive, remoteTickets, hpeer, ofNat_add])
      (by simp [ofLive, hpeer]) (funext fun p => ?_)
    by_cases hp : p = peer
    · subst hp
      by_cases hmem : p ∈ live
      · simp [ofLive, hpeer, hmem, ofNat_add]
      · simp [ofLive, hpeer, hmem, count_eq_zero_of_not_mem]
    · simp [ofLive, hp, Ne.symm hp]

theorem Counts.release_ofLive (h : live.count peer + 1 < 2 ^ 64) :
    (ofLive (peer :: live)).release peer = some (ofLive live) := by
  by_cases hpeer : peer = 0
  · subst hpeer
    rw [← increment_ofLive, release, increment, if_pos rfl, if_pos rfl]
    simp
  · have hfound : (ofLive (peer :: live)).peers peer = some (.ofNat (live.count peer + 1)) := by
      simp [ofLive, hpeer]
    have hdecrement : UInt64.ofNat (live.count peer + 1) - 1 = .ofNat (live.count peer) := by
      simp [ofNat_add]
    have hzero : UInt64.ofNat (live.count peer) = 0 ↔ peer ∉ live := by
      rw [← UInt64.toNat_inj, toNat_ofNat', Nat.mod_eq_of_lt (by omega), ← count_eq_zero]
      rfl
    rw [release, if_neg hpeer, hfound, Option.map_some, hdecrement, ← increment_ofLive, increment,
      if_neg hpeer]
    refine congrArg some (Counts.ext (by simp) (by simp) (funext fun p => ?_))
    by_cases hp : p = peer
    · subst hp
      simp [hzero, ofLive, hpeer]
    · simp [hp]

theorem WithinLimits.limitReached_iff (h : a.WithinLimits live) :
    a.LimitReached (.ofLive live) peer ↔
      if peer = 0 then live.count 0 = a.localLimit.toNat
      else remoteTickets live = a.globalLimit.toNat ∨
        peer ∈ live ∧ live.count peer = a.peerLimit.toNat := by
  have hreached : ∀ {limit : UInt64} {n : ℕ}, n ≤ limit.toNat →
      (limit ≤ .ofNat n ↔ n = limit.toNat) := by
    intro limit n hn
    have := limit.toNat_lt
    rw [le_iff_toNat_le, toNat_ofNat', Nat.mod_eq_of_lt (by omega)]
    omega
  unfold LimitReached
  by_cases hpeer : peer = 0
  · rw [if_pos hpeer, if_pos hpeer]
    exact hreached h.localVotes
  · rw [if_neg hpeer, if_neg hpeer]
    refine or_congr (hreached h.remote) ?_
    by_cases hmem : peer ∈ live
    · simp [Counts.ofLive, hpeer, hmem, hreached (h.peers peer hpeer)]
    · simp [Counts.ofLive, hmem]

theorem WithinLimits.cons (hone : 1 ≤ a.peerLimit) (h : a.WithinLimits live)
    (hfree : ¬ a.LimitReached (.ofLive live) peer) : a.WithinLimits (peer :: live) := by
  rw [h.limitReached_iff] at hfree
  obtain ⟨hlocal, hremote, hpeers⟩ := h
  have hone' : 1 ≤ a.peerLimit.toNat := hone
  by_cases hpeer : peer = 0
  · subst hpeer
    rw [if_pos rfl] at hfree
    refine ⟨by rw [count_cons_self]; omega, by simpa [remoteTickets] using hremote, fun p hp => ?_⟩
    simpa [Ne.symm hp] using hpeers p hp
  · rw [if_neg hpeer, not_or, not_and] at hfree
    refine ⟨by simpa [hpeer] using hlocal, ?_, fun p hp => ?_⟩
    · have := hfree.1
      simp only [remoteTickets, countP_cons, ne_eq, hpeer, not_false_eq_true, decide_true,
        if_true] at *
      omega
    · have hle := hpeers p hp
      by_cases heq : peer = p
      · subst heq
        rw [count_cons_self]
        by_cases hmem : peer ∈ live
        · have := hfree.2 hmem
          omega
        · rw [count_eq_zero_of_not_mem hmem]
          exact hone'
      · simpa [heq] using hle

theorem WithinLimits.of_cons (h : a.WithinLimits (peer :: live)) : a.WithinLimits live where
  localVotes := Nat.le_trans count_le_count_cons h.localVotes
  remote := Nat.le_trans ((sublist_cons_self _ _).countP_le) h.remote
  peers p hp := Nat.le_trans count_le_count_cons (h.peers p hp)

theorem WithinLimits.count_lt (h : a.WithinLimits live) (p : UInt32) : live.count p < 2 ^ 64 := by
  by_cases hp : p = 0
  · exact hp ▸ Nat.lt_of_le_of_lt h.localVotes a.localLimit.toNat_lt
  · exact Nat.lt_of_le_of_lt (h.peers p hp) a.peerLimit.toNat_lt

theorem WithinLimits.perm (h : a.WithinLimits live) (hp : live.Perm live') :
    a.WithinLimits live' := by
  obtain ⟨hlocal, hremote, hpeers⟩ := h
  simp only [remoteTickets, hp.count_eq, hp.countP_eq] at *
  exact ⟨hlocal, hremote, hpeers⟩

/-- The states that the steps reach. -/
structure Sound (a : VoteAdmission) (s : System) : Prop where
  counts : s.counts = .ofLive s.live
  limits : a.WithinLimits s.live

variable {s : System}

theorem Sound.acquire (hone : 1 ≤ a.peerLimit) (h : a.Sound s) (alloc : Allocator) :
    ∃ s', a.step s (.acquire peer alloc) = some s' ∧ a.Sound s' := by
  obtain ⟨hcounts, hlimits⟩ := h
  unfold step VoteAdmission.acquire
  dsimp only
  split_ifs with hreached
  · exact ⟨_, rfl, hcounts, hlimits⟩
  · exact ⟨_, rfl, hcounts, hlimits⟩
  · exact ⟨_, rfl, hcounts, hlimits⟩
  · rw [hcounts] at hreached ⊢
    exact ⟨_, rfl, Counts.increment_ofLive, hlimits.cons hone hreached⟩

theorem Sound.release (h : a.Sound s) (i : ℕ) :
    ∃ s', a.step s (.release i) = some s' ∧ a.Sound s' := by
  unfold step
  dsimp only
  cases hi : s.live[i]? with
  | none => exact ⟨_, rfl, h⟩
  | some peer =>
    obtain ⟨hlt, rfl⟩ := List.getElem?_eq_some_iff.mp hi
    have hperm := (getElem_cons_eraseIdx_perm hlt).symm
    have hlimits := h.limits.perm hperm
    have hcount := hlimits.count_lt s.live[i]
    rw [count_cons_self] at hcount
    refine ⟨⟨.ofLive (s.live.eraseIdx i), s.live.eraseIdx i⟩, ?_, rfl, hlimits.of_cons⟩
    dsimp only
    rw [h.counts, Counts.ofLive_perm hperm, Counts.release_ofLive hcount]
    rfl

theorem Sound.run (hone : 1 ≤ a.peerLimit) (h : a.Sound s) (steps : List Step) :
    ∃ s', steps.foldlM a.step s = some s' ∧ a.Sound s' := by
  induction steps generalizing s with
  | nil => exact ⟨s, rfl, h⟩
  | cons x steps ih =>
    have hstep : ∃ s', a.step s x = some s' ∧ a.Sound s' := by
      cases x with
      | acquire peer alloc => exact h.acquire hone alloc
      | release i => exact h.release i
    obtain ⟨s', hs', hsound⟩ := hstep
    obtain ⟨t, ht, hfinal⟩ := ih hsound
    refine ⟨t, ?_, hfinal⟩
    rw [foldlM_cons, hs']
    exact ht

theorem admission_counts_live (a : VoteAdmission) (steps : List Step)
    (hlimits : 1 ≤ a.globalLimit ∧ 1 ≤ a.peerLimit ∧ 1 ≤ a.localLimit) :
    ∃ s, steps.foldlM a.step {} = some s ∧ s.counts = .ofLive s.live ∧ a.WithinLimits s.live ∧
      ∀ peer alloc, (a.acquire s.counts peer alloc).1 = .refused →
        if peer = 0 then s.live.count 0 = a.localLimit.toNat
        else remoteTickets s.live = a.globalLimit.toNat ∨
          peer ∈ s.live ∧ s.live.count peer = a.peerLimit.toNat := by
  have hinitial : a.Sound {} := by
    refine ⟨?_, ?_, ?_, ?_⟩ <;> simp [Counts.ofLive, remoteTickets]
  obtain ⟨s, hs, hcounts, hwithin⟩ := hinitial.run hlimits.2.1 steps
  refine ⟨s, hs, hcounts, hwithin, fun peer alloc href => ?_⟩
  rw [← hwithin.limitReached_iff, ← hcounts]
  by_contra hfree
  rw [acquire, if_neg hfree] at href
  split_ifs at href

theorem released_peer_forgotten :
    ∃ s, [.acquire 7 {}, .acquire 0 {}, .acquire 7 ⟨true, false⟩, .release 1].foldlM
      (step {}) {} = some s ∧ s.live = [0] ∧ s.counts = .ofLive [0] := by
  obtain ⟨s, hs, hcounts, -⟩ := admission_counts_live {}
    [.acquire 7 {}, .acquire 0 {}, .acquire 7 ⟨true, false⟩, .release 1] (by decide)
  have hlive : s.live = [0] := by
    cases hs
    rfl
  exact ⟨s, hs, hlive, hlive ▸ hcounts⟩

end VoteAdmission
end FlonCore
