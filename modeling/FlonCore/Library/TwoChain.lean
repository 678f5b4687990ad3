import FlonCore.Library.Quorum

/-!
# Safety of two-chain voting

Voters see a growing tree of timed blocks. Every block points to an ancestor it
justifies, and a block is final once a block that justifies it has gathered a
quorum of strong votes. A voter remembers the block of its last vote, a lock,
and the latest time it voted on a branch that its last vote does not extend.
The voting rule below keeps three relations between any two votes of one voter;
quorum intersection and an induction over block times turn them into agreement
of all final blocks.
-/

namespace FlonCore.Library.TwoChain

open List
structure BlockTree (β τ : Type*) [PartialOrder β] [LinearOrder τ] where
  time : β → τ
  just : β → β
  time_lt : ∀ {a b : β}, a < b → time a < time b
  branch : ∀ {a b c : β}, a ≤ c → b ≤ c → a ≤ b ∨ b ≤ a
  just_le : ∀ b : β, just b ≤ b
  just_mono : ∀ {a b : β}, a ≤ b → just a ≤ just b

structure Ballot (β : Type*) where
  block : β
  strong : Bool
deriving DecidableEq

structure Memory (β τ : Type*) where
  (lastVote lock : β)
  otherBranch : τ

variable {β : Type*}

section Certificates
variable {φ : Type*} [Fintype φ] (weight : φ → ℕ) (threshold : ℕ)
  (history : φ → List (Ballot β))

def Certified (b : β) : Prop :=
  threshold ≤ weightOf weight fun f => ∃ v ∈ history f, v.block = b

def StrongCertified (b : β) : Prop :=
  threshold ≤ weightOf weight fun f => ∃ v ∈ history f, v.block = b ∧ v.strong = true

variable {weight threshold history} {b : β}

theorem StrongCertified.certified (h : StrongCertified weight threshold history b) :
    Certified weight threshold history b := by
  refine h.trans (weightOf_mono weight ?_)
  rintro f ⟨v, hv, hb, -⟩
  exact ⟨v, hv, hb⟩

theorem Certified.exists_vote (hmajority : ∑ f, weight f < 2 * threshold)
    (h : Certified weight threshold history b) : ∃ f, ∃ v ∈ history f, v.block = b := by
  obtain ⟨f, hf, -⟩ := exists_common_voter weight hmajority h h
  exact ⟨f, hf⟩

variable {history' : φ → List (Ballot β)} (hsub : ∀ f, ∀ v ∈ history f, v ∈ history' f)
include hsub

theorem Certified.mono (h : Certified weight threshold history b) :
    Certified weight threshold history' b := by
  refine h.trans (weightOf_mono weight ?_)
  rintro f ⟨v, hv, hb⟩
  exact ⟨v, hsub f v hv, hb⟩

theorem StrongCertified.mono (h : StrongCertified weight threshold history b) :
    StrongCertified weight threshold history' b := by
  refine h.trans (weightOf_mono weight ?_)
  rintro f ⟨v, hv, hb⟩
  exact ⟨v, hsub f v hv, hb⟩

end Certificates

theorem pairwise_cases {α : Type*} {R : α → α → Prop} {l : List α} (h : l.Pairwise R)
    {a b : α} (ha : a ∈ l) (hb : b ∈ l) : a = b ∨ R a b ∨ R b a := by
  induction h with
  | nil => cases ha
  | cons hrel _ ih =>
    rcases mem_cons.mp ha with rfl | ha'
    · rcases mem_cons.mp hb with rfl | hb'
      · exact .inl rfl
      · exact .inr (.inl (hrel _ hb'))
    · rcases mem_cons.mp hb with rfl | hb'
      · exact .inr (.inr (hrel _ ha'))
      · exact ih ha' hb'

variable {τ : Type*} [PartialOrder β] [LinearOrder τ] (T : BlockTree β τ)

namespace BlockTree

theorem time_le {a b : β} (h : a ≤ b) : T.time a ≤ T.time b := by
  rcases h.eq_or_lt with rfl | hlt
  · exact le_rfl
  · exact (T.time_lt hlt).le

theorem le_of_time_le {a b c : β} (ha : a ≤ c) (hb : b ≤ c) (h : T.time a ≤ T.time b) : a ≤ b := by
  rcases T.branch ha hb with hab | hba
  · exact hab
  · rcases hba.eq_or_lt with rfl | hlt
    · exact le_rfl
    · exact absurd h (T.time_lt hlt).not_ge

end BlockTree

/-- The voting rule. A strong vote needs that every vote off the branch is at most as
late as the justified block, and may raise the lock to that block. -/
structure Votes (m : Memory β τ) (c : β) (strong : Bool) (m' : Memory β τ) : Prop where
  just_lt : T.just c < c
  later : T.time m.lastVote < T.time c
  unlocked : T.time m.lock < T.time (T.just c) ∨ m.lock < c
  lastVote_eq : m'.lastVote = c
  strong_rule : strong = true → T.time m.lastVote ≤ T.time (T.just c) ∨
    (m.lastVote ≤ c ∧ m.otherBranch ≤ T.time (T.just c))
  strong_lock : strong = true → T.time m.lock < T.time (T.just c) → m'.lock = T.just c
  strong_keep : strong = true → ¬ T.time m.lock < T.time (T.just c) → m'.lock = m.lock
  weak_rule : strong = false → m'.lock = m.lock ∧
    ((m.lastVote ≤ c ∧ m'.otherBranch = m.otherBranch) ∨ m'.otherBranch = T.time m.lastVote)

section Histories
variable (anchor : β) (cert : β → Prop)

def Justified (c : β) : Prop := T.just c ≤ anchor ∨ cert (T.just c)

def Unlocked (t : τ) (c : β) : Prop :=
  t < T.time (T.just c) ∨ ∃ l, l < c ∧ t ≤ T.time l ∧ (l = anchor ∨ cert l)

structure Follows (later earlier : Ballot β) : Prop where
  time_lt : T.time earlier.block < T.time later.block
  locked : earlier.strong = true → Unlocked T anchor cert (T.time (T.just earlier.block))
    later.block
  clear : later.strong = true → earlier.block ≤ later.block ∨
    T.time earlier.block ≤ T.time (T.just later.block)

structure Honest (history : List (Ballot β)) : Prop where
  follows : history.Pairwise (Follows T anchor cert)
  unlocked : ∀ v ∈ history, Unlocked T anchor cert (T.time anchor) v.block
  justified : ∀ v ∈ history, Justified T anchor cert v.block
  just_lt : ∀ v ∈ history, T.just v.block < v.block

structure Remembers (m : Memory β τ) (history : List (Ballot β)) : Prop where
  honest : Honest T anchor cert history
  past_time : ∀ v ∈ history, T.time v.block ≤ T.time m.lastVote
  anchor_le : T.time anchor ≤ T.time m.lock
  lock_cert : m.lock = anchor ∨ cert m.lock
  lock_strong : ∀ v ∈ history, v.strong = true → T.time (T.just v.block) ≤ T.time m.lock
  covered : ∀ v ∈ history, v.block ≤ m.lastVote ∨ T.time v.block ≤ m.otherBranch ∨
    T.time v.block ≤ T.time (T.just m.lastVote)

variable {T anchor cert} {cert' : β → Prop}

section
variable (hc : ∀ b, cert b → cert' b) {c : β}
include hc

theorem Unlocked.mono {t : τ} (h : Unlocked T anchor cert t c) : Unlocked T anchor cert' t c := by
  rcases h with h | ⟨l, hl, ht, hcert⟩
  · exact .inl h
  · exact .inr ⟨l, hl, ht, hcert.imp_right (hc l)⟩

theorem Justified.mono (h : Justified T anchor cert c) : Justified T anchor cert' c :=
  h.imp_right (hc _)

theorem Remembers.mono {m : Memory β τ} {history : List (Ballot β)}
    (h : Remembers T anchor cert m history) : Remembers T anchor cert' m history where
  honest :=
    { follows := h.honest.follows.imp fun hf =>
        ⟨hf.time_lt, fun hs => (hf.locked hs).mono hc, hf.clear⟩
      unlocked := fun v hv => (h.honest.unlocked v hv).mono hc
      justified := fun v hv => (h.honest.justified v hv).mono hc
      just_lt := h.honest.just_lt }
  past_time := h.past_time
  anchor_le := h.anchor_le
  lock_cert := h.lock_cert.imp_right (hc _)
  lock_strong := h.lock_strong
  covered := h.covered

end

theorem Remembers.start (other : τ) : Remembers T anchor cert ⟨anchor, anchor, other⟩ [] where
  honest := ⟨List.Pairwise.nil, by simp, by simp, by simp⟩
  past_time := by simp
  anchor_le := le_rfl
  lock_cert := .inl rfl
  lock_strong := by simp
  covered := by simp

variable {m m' : Memory β τ} {history : List (Ballot β)} {c : β} {strong : Bool}

theorem Remembers.lock_le (hv : Votes T m c strong m') :
    T.time m.lock ≤ T.time m'.lock ∧
      (strong = true → T.time (T.just c) ≤ T.time m'.lock) ∧
      (m'.lock = m.lock ∨ (m'.lock = T.just c ∧ T.time m.lock < T.time (T.just c))) := by
  cases strong with
  | true =>
    by_cases hlt : T.time m.lock < T.time (T.just c)
    · rw [hv.strong_lock rfl hlt]
      exact ⟨hlt.le, fun _ => le_rfl, .inr ⟨rfl, hlt⟩⟩
    · rw [hv.strong_keep rfl hlt]
      exact ⟨le_rfl, fun _ => not_lt.mp hlt, .inl rfl⟩
  | false =>
    rw [(hv.weak_rule rfl).1]
    exact ⟨le_rfl, by simp, .inl rfl⟩

variable (h : Remembers T anchor cert m history)
include h

theorem Remembers.clear (hv : Votes T m c true m') {v : Ballot β} (hm : v ∈ history) :
    v.block ≤ c ∨ T.time v.block ≤ T.time (T.just c) := by
  rcases hv.strong_rule rfl with hlast | ⟨hle, hother⟩
  · exact .inr ((h.past_time v hm).trans hlast)
  · rcases h.covered v hm with hb | ho | hj
    · exact .inl (hb.trans hle)
    · exact .inr (ho.trans hother)
    · exact .inr (hj.trans (T.time_le (T.just_mono hle)))

variable (hv : Votes T m c strong m')
include hv

theorem Remembers.unlocked {t : τ} (ht : t ≤ T.time m.lock) : Unlocked T anchor cert t c := by
  rcases hv.unlocked with hlt | hlt
  · exact .inl (ht.trans_lt hlt)
  · exact .inr ⟨m.lock, hlt, ht, h.lock_cert⟩

theorem Remembers.covered_step {v : Ballot β} (hm : v ∈ history) :
    v.block ≤ c ∨ T.time v.block ≤ m'.otherBranch ∨ T.time v.block ≤ T.time (T.just c) := by
  cases strong with
  | true => exact (h.clear hv hm).imp_right .inr
  | false =>
    rcases (hv.weak_rule rfl).2 with ⟨hle, heq⟩ | heq
    · rcases h.covered v hm with hb | ho | hj
      · exact .inl (hb.trans hle)
      · exact .inr (.inl (heq ▸ ho))
      · exact .inr (.inr (hj.trans (T.time_le (T.just_mono hle))))
    · exact .inr (.inl (heq ▸ h.past_time v hm))

theorem Remembers.vote (hj : Justified T anchor cert c) :
    Remembers T anchor cert m' (⟨c, strong⟩ :: history) := by
  obtain ⟨hlock, hstrong, hnew⟩ := Remembers.lock_le hv
  refine ⟨⟨pairwise_cons.mpr ⟨?_, h.honest.follows⟩, ?_, ?_, ?_⟩, ?_, ?_, ?_, ?_, ?_⟩
  · intro v hm
    refine ⟨(h.past_time v hm).trans_lt hv.later,
      fun hs => h.unlocked hv (h.lock_strong v hm hs), ?_⟩
    rintro rfl
    exact h.clear hv hm
  · exact forall_mem_cons.mpr ⟨h.unlocked hv h.anchor_le, h.honest.unlocked⟩
  · exact forall_mem_cons.mpr ⟨hj, h.honest.justified⟩
  · exact forall_mem_cons.mpr ⟨hv.just_lt, h.honest.just_lt⟩
  · rw [hv.lastVote_eq]
    exact forall_mem_cons.mpr ⟨le_rfl, fun v hm => (h.past_time v hm).trans hv.later.le⟩
  · exact h.anchor_le.trans hlock
  · rcases hnew with heq | ⟨heq, hlt⟩
    · rw [heq]
      exact h.lock_cert
    · rw [heq]
      refine .inr (hj.resolve_left fun hle => ?_)
      exact absurd (T.time_le hle) (h.anchor_le.trans_lt hlt).not_ge
  · refine forall_mem_cons.mpr ⟨hstrong, fun v hm hs => ?_⟩
    exact (h.lock_strong v hm hs).trans hlock
  · rw [hv.lastVote_eq]
    exact forall_mem_cons.mpr ⟨.inl le_rfl, fun v hm => h.covered_step hv hm⟩

end Histories

section Agreement
variable {φ : Type*} [Fintype φ] {weight : φ → ℕ} {threshold : ℕ}
  {history : φ → List (Ballot β)} {anchor : β}

def Final (weight : φ → ℕ) (threshold : ℕ) (history : φ → List (Ballot β)) (anchor p : β) :
    Prop :=
  p ≤ anchor ∨ ∃ b, StrongCertified weight threshold history b ∧ p = T.just b

variable {T}

theorem Final.mono {history' : φ → List (Ballot β)}
    (hsub : ∀ f, ∀ v ∈ history f, v ∈ history' f) {p : β}
    (h : Final T weight threshold history anchor p) :
    Final T weight threshold history' anchor p := by
  rcases h with hle | ⟨b, hb, hp⟩
  · exact .inl hle
  · exact .inr ⟨b, hb.mono hsub, hp⟩

variable (hmajority : ∑ f, weight f < 2 * threshold)
  (hhonest : ∀ f, Honest T anchor (Certified weight threshold history) (history f))
include hmajority hhonest

theorem Certified.justified {b : β} (h : Certified weight threshold history b) :
    Justified T anchor (Certified weight threshold history) b := by
  obtain ⟨f, v, hv, rfl⟩ := h.exists_vote hmajority
  exact (hhonest f).justified v hv

theorem Certified.eq_of_time {b d : β} (hb : Certified weight threshold history b)
    (hd : Certified weight threshold history d) (ht : T.time b = T.time d) : b = d := by
  obtain ⟨f, ⟨v, hv, rfl⟩, w, hw, rfl⟩ := exists_common_voter weight hmajority hb hd
  rcases pairwise_cases (hhonest f).follows hv hw with rfl | hf | hf
  · rfl
  · exact absurd ht hf.time_lt.ne'
  · exact absurd ht hf.time_lt.ne

variable [WellFoundedLT τ]

theorem Certified.anchor_le {d : β} (hd : Certified weight threshold history d) : anchor ≤ d := by
  induction ht : T.time d using WellFoundedLT.induction generalizing d with
  | ind t ih =>
    subst ht
    obtain ⟨f, v, hv, rfl⟩ := hd.exists_vote hmajority
    have hlt := (hhonest f).just_lt v hv
    rcases (hhonest f).unlocked v hv with hj | ⟨l, hl, -, rfl | hcert⟩
    · rcases (hhonest f).justified v hv with hle | hcert
      · exact absurd (T.time_le hle) hj.not_ge
      · exact (ih _ (T.time_lt hlt) hcert rfl).trans hlt.le
    · exact hl.le
    · exact (ih _ (T.time_lt hl) hcert rfl).trans hl.le

/-- Every certified block later than what `b` justifies descends from it. A common
voter voted on both blocks; the two orders of its votes are the two cases. -/
theorem StrongCertified.just_le {b d : β} (hb : StrongCertified weight threshold history b)
    (hd : Certified weight threshold history d) (ht : T.time (T.just b) < T.time d) :
    T.just b ≤ d := by
  rcases hb.certified.justified hmajority hhonest with hle | hjcert
  · exact hle.trans (hd.anchor_le hmajority hhonest)
  have hanchor := hjcert.anchor_le hmajority hhonest
  induction hk : T.time d using WellFoundedLT.induction generalizing d with
  | ind t ih =>
    subst hk
    obtain ⟨f, ⟨v, hv, rfl, hs⟩, w, hw, rfl⟩ := exists_common_voter weight hmajority hb hd
    have hlt := (hhonest f).just_lt w hw
    rcases pairwise_cases (hhonest f).follows hv hw with rfl | hf | hf
    · exact T.just_le v.block
    · rcases hf.clear hs with hle | hle
      · exact T.le_of_time_le (T.just_le _) hle ht.le
      · exact absurd hle ht.not_ge
    · rcases hf.locked hs with hj | ⟨l, hl, hle, heq | hcert⟩
      · rcases (hhonest f).justified w hw with hle | hcert
        · exact absurd ((T.time_le hanchor).trans_lt hj) (T.time_le hle).not_gt
        · exact (ih _ (T.time_lt hlt) hcert hj rfl).trans hlt.le
      · rcases hanchor.eq_or_lt with heq' | hlt'
        · exact (heq'.symm.trans heq.symm).le.trans hl.le
        · exact absurd (T.time_lt hlt') (heq ▸ hle).not_gt
      · rcases hle.eq_or_lt with heq | hlt'
        · exact (hjcert.eq_of_time hmajority hhonest hcert heq).le.trans hl.le
        · exact (ih _ (T.time_lt hl) hcert hlt' rfl).trans hl.le

theorem Final.cases {p : β} (hp : Final T weight threshold history anchor p) :
    p ≤ anchor ∨ (anchor ≤ p ∧ Certified weight threshold history p ∧
      ∃ b, StrongCertified weight threshold history b ∧ p = T.just b) := by
  rcases hp with hle | ⟨b, hb, rfl⟩
  · exact .inl hle
  · rcases hb.certified.justified hmajority hhonest with hle | hcert
    · exact .inl hle
    · exact .inr ⟨hcert.anchor_le hmajority hhonest, hcert, b, hb, rfl⟩

theorem Final.comparable {p q : β} (hp : Final T weight threshold history anchor p)
    (hq : Final T weight threshold history anchor q) : p ≤ q ∨ q ≤ p := by
  rcases hp.cases hmajority hhonest with hpa | ⟨hap, hpc, b, hb, hpb⟩
  · rcases hq.cases hmajority hhonest with hqa | ⟨haq, -⟩
    · exact T.branch hpa hqa
    · exact .inl (hpa.trans haq)
  · rcases hq.cases hmajority hhonest with hqa | ⟨haq, hqc, d, hd, hqd⟩
    · exact .inr (hqa.trans hap)
    · rcases lt_trichotomy (T.time p) (T.time q) with hlt | heq | hgt
      · exact .inl (hpb ▸ hb.just_le hmajority hhonest hqc (hpb ▸ hlt))
      · exact .inl (hpc.eq_of_time hmajority hhonest hqc heq).le
      · exact .inr (hqd ▸ hd.just_le hmajority hhonest hpc (hqd ▸ hgt))

end Agreement
end FlonCore.Library.TwoChain
