import FlonCore.Library.Outcome
import FlonCore.Types

/-!
# The catalog of retained block logs

A catalog maps ranges of blocks to pairs of a log file and its index file, and keeps the pair
it opened last. The place of that pair in the map is cached, and moves when older ranges are
dropped.
-/

namespace FlonCore
open Library Option

structure LogRange where
  (first last : ℕ)
deriving DecidableEq, Repr

abbrev LogRange.Holds (r : LogRange) (blockNum : ℕ) : Prop :=
  r.first ≤ blockNum ∧ blockNum ≤ r.last

/-- A log with its index: the number of the first block, and where each block is. -/
structure LogBundle where
  firstBlockNum : ℕ
  positions : List ℕ
deriving DecidableEq, Repr

namespace LogBundle

/-- Reading beyond the end of the index throws. -/
def blockPosition (b : LogBundle) (blockNum : ℕ) : Option ℕ :=
  b.positions[u32 (blockNum + 2 ^ 32 - b.firstBlockNum)]?

def ValidFor (b : LogBundle) (r : LogRange) : Prop :=
  r.first ≤ r.last ∧ r.last < 2 ^ 32 ∧ b.firstBlockNum = r.first ∧
    b.positions.length = r.last + 1 - r.first

end LogBundle

inductive FilesystemError
  | noSuchFile
deriving DecidableEq, Repr

/-- Files of a directory, which are named after the range they hold. -/
abbrev LogDirectory := LogRange → Option LogBundle

namespace LogDirectory

def renameIfNotExists (d : LogDirectory) (r : LogRange) (b : LogBundle) : LogDirectory :=
  if (d r).isSome then d else Function.update d r (some b)

def removeAll (d : LogDirectory) (rs : List LogRange) : LogDirectory :=
  fun r => if r ∈ rs then none else d r

end LogDirectory

/-- The ordered map is the list of its keys with the last block of each. Of the archive, which is
never read, it only matters if there is one. -/
structure LogCatalog where
  maxRetainedFiles : ℕ
  archives : Bool
  retainedDir : LogDirectory
  collection : List LogRange
  activeIndex : Option ℕ
  active : LogBundle

open LogDirectory

namespace LogCatalog
variable (c : LogCatalog)

def firstBlockNum : ℕ := (c.collection.head?.map LogRange.first).getD (2 ^ 32 - 1)

/-- What `--collection.upper_bound(block_num)` points to, if anything. -/
def beforeUpperBound (blockNum : ℕ) : Option LogRange :=
  (c.collection.filter fun r => r.first ≤ blockNum).getLast?

/-- An answer from the files that are open; an exception is caught. -/
def readActive (blockNum : ℕ) : Option ℕ × LogCatalog :=
  match c.active.blockPosition blockNum with
  | some position => (some position, c)
  | none => (none, { c with activeIndex := none })

def openFor (blockNum : ℕ) : Outcome FilesystemError (Option ℕ × LogCatalog) :=
  if blockNum < c.firstBlockNum then .returns (none, c)
  else match c.beforeUpperBound blockNum with
    | none => .undefined
    | some r =>
      if blockNum ≤ r.last then
        match c.retainedDir r with
        | some b => .returns ({ c with activeIndex := some (c.collection.idxOf r),
                                       active := b }.readActive blockNum)
        | none => .returns (none, { c with activeIndex := none })
      else .returns (none, c)

def getBlockPosition (blockNum : ℕ) : Outcome FilesystemError (Option ℕ × LogCatalog) :=
  match c.activeIndex with
  | none => c.openFor blockNum
  | some i => match c.collection[i]? with
    | none => .undefined
    | some r => if r.Holds blockNum then .returns (c.readActive blockNum) else c.openFor blockNum

def emplaceRange (m : List LogRange) (r : LogRange) : List LogRange :=
  if r.first ∈ m.map LogRange.first then m
  else (m.filter fun s => s.first < r.first) ++ r :: m.filter fun s => r.first < s.first

/-- The files of a range are deleted, or moved where there is an archive. -/
def retire (r : LogRange) : Outcome FilesystemError LogCatalog :=
  if c.archives && !(c.retainedDir r).isSome then .throws .noSuchFile
  else .returns { c with retainedDir := c.retainedDir.removeAll [r] }

def add (r : LogRange) (b : LogBundle) : Outcome FilesystemError LogCatalog := do
  let c := { c with retainedDir := c.retainedDir.renameIfNotExists r b,
                    collection := emplaceRange c.collection r }
  if c.maxRetainedFiles ≤ c.collection.length then
    let itemsToErase := if 0 < c.maxRetainedFiles then
      c.collection.length - c.maxRetainedFiles else c.collection.length
    let c ← (c.collection.take itemsToErase).foldlM retire c
    return { c with
      collection := c.collection.drop itemsToErase
      activeIndex := c.activeIndex.bind fun i =>
        if i < itemsToErase then none else some (i - itemsToErase) }
  else return c

def without (rs : List LogRange) : LogCatalog :=
  { c with retainedDir := c.retainedDir.removeAll rs
           collection := c.collection.filter (· ∉ rs)
           activeIndex := none }

/-- The files that hold the block are renamed to what the caller asks for. -/
def truncate (blockNum : ℕ) : Outcome FilesystemError (ℕ × LogCatalog) :=
  let above := c.collection.filter fun r => blockNum < r.first
  if c.collection = [] then .returns (0, c)
  else match c.beforeUpperBound blockNum with
    | none => .returns (0, c.without above)
    | some r =>
      if r.last < blockNum then .returns (0, c.without above)
      else if (c.retainedDir r).isSome then .returns (r.first, c.without (r :: above))
      else .throws .noSuchFile

def fresh (maxRetainedFiles : ℕ) (archives : Bool) : LogCatalog :=
  ⟨maxRetainedFiles, archives, fun _ => none, [], none, ⟨0, []⟩⟩

/-- The files that a catalog is to hold, the oldest first. -/
abbrev Held := List (LogRange × LogBundle)

def Held.position (held : Held) (blockNum : ℕ) : Option ℕ := do
  let (r, b) ← held.find? fun e => e.1.Holds blockNum
  b.positions[blockNum - r.first]?

def Held.Follows (held : Held) (r : LogRange) (b : LogBundle) : Prop :=
  b.ValidFor r ∧ ∀ e ∈ held, e.1.last < r.first

def Held.add (held : Held) (max : ℕ) (r : LogRange) (b : LogBundle) : Held :=
  (held ++ [(r, b)]).drop (held.length + 1 - max)

/-- The catalogs that operations lead to, with the files they are to hold then. -/
inductive Reaches (max : ℕ) : Held → LogCatalog → Prop
  | fresh (archives : Bool) : Reaches max [] (fresh max archives)
  | add {held : Held} {c c' : LogCatalog} {r : LogRange} {b : LogBundle}
      (hreach : Reaches max held c) (hr : held.Follows r b) (hadd : c.add r b = .returns c') :
      Reaches max (held.add max r b) c'
  | getBlockPosition {held : Held} {c c' : LogCatalog} {n : ℕ} {answer : Option ℕ}
      (hreach : Reaches max held c) (hget : c.getBlockPosition n = .returns (answer, c')) :
      Reaches max held c'
  | truncate {held : Held} {c c' : LogCatalog} {n first : ℕ} (hreach : Reaches max held c)
      (htruncate : c.truncate n = .returns (first, c')) :
      Reaches max (held.filter fun e => e.1.last < n) c'

/-- The catalog holds the files, and what it has open is the pair at the cached place. -/
structure Tracks (max : ℕ) (held : Held) (c : LogCatalog) : Prop where
  max_eq : c.maxRetainedFiles = max
  collection : c.collection = held.map Prod.fst
  ordered : held.Pairwise fun e e' => e.1.last < e'.1.first
  valid : ∀ e ∈ held, e.2.ValidFor e.1
  files : ∀ r b, c.retainedDir r = some b ↔ (r, b) ∈ held
  active : ∀ i, c.activeIndex = some i → ∃ r, held[i]? = some (r, c.active)

open List hiding removeAll
variable {c} {max n : ℕ} {held : Held} {r : LogRange} {b : LogBundle} {e e' : LogRange × LogBundle}

theorem position_eq_none (h : ∀ e ∈ held, ¬ e.1.Holds n) : held.position n = none := by
  have hfind : held.find? (fun e => e.1.Holds n) = none :=
    find?_eq_none.mpr fun e he => by simpa using h e he
  rw [Held.position, hfind]
  rfl

namespace Tracks

section
variable (h : Tracks max held c)
include h

theorem eq_of_holds (he : e ∈ held) (he' : e' ∈ held) (hn : e.1.Holds n) (hn' : e'.1.Holds n) :
    e = e' := by
  by_contra hne
  have : Std.Symm fun e e' : LogRange × LogBundle =>
      e.1.last < e'.1.first ∨ e'.1.last < e.1.first := ⟨fun _ _ => Or.symm⟩
  have hpairs : held.Pairwise fun e e' => e.1.last < e'.1.first ∨ e'.1.last < e.1.first :=
    h.ordered.imp .inl
  have hapart := hpairs.forall he he' hne
  omega

theorem eq_of_range (he : e ∈ held) (he' : e' ∈ held) (heq : e.1 = e'.1) : e = e' := by
  have hfirst : e.1.Holds e.1.first := ⟨le_rfl, (h.valid e he).1⟩
  exact h.eq_of_holds he he' hfirst (heq ▸ hfirst)

theorem readActive (he : (r, c.active) ∈ held) (hn : r.Holds n) :
    c.readActive n = (held.position n, c) := by
  obtain ⟨-, hlast, hfirst, hlength⟩ := h.valid _ he
  have hplace : u32 (n + 2 ^ 32 - c.active.firstBlockNum) = n - r.first := by
    unfold u32
    dsimp only at *
    omega
  have hfind : held.find? (fun e => e.1.Holds n) = some (r, c.active) := by
    cases hfind : held.find? fun e => e.1.Holds n with
    | none => simpa [hn] using find?_eq_none.mp hfind _ he
    | some e =>
      exact congrArg some (h.eq_of_holds (mem_of_find?_eq_some hfind) he
        (by simpa using find?_some hfind) hn)
  have hget : c.active.positions[n - r.first]? = some _ := getElem?_eq_getElem (by
    dsimp only at *
    omega)
  rw [Held.position, hfind, LogCatalog.readActive, LogBundle.blockPosition, hplace, hget]
  exact congrArg (·, c) hget.symm

theorem first_le_of_beforeUpperBound (hr : c.beforeUpperBound n = some r) :
    r.first ≤ n ∧ (∃ b, (r, b) ∈ held) ∧
      ∀ e ∈ held, e.1.first ≤ n → e.1 = r ∨ e.1.last < r.first := by
  obtain ⟨front, hfront⟩ := getLast?_eq_some_iff.mp hr
  have hmem : ∀ s, s ∈ front ++ [r] ↔ (∃ b, (s, b) ∈ held) ∧ s.first ≤ n := by
    intro s
    rw [← hfront, h.collection]
    simp
  have hordered : (front ++ [r]).Pairwise fun s s' => s.last < s'.first := by
    rw [← hfront, h.collection]
    exact (pairwise_map.mpr h.ordered).filter _
  obtain ⟨hin, hle⟩ := (hmem r).mp (by simp)
  refine ⟨hle, hin, fun e he hfirst => ?_⟩
  obtain hs | hs := mem_append.mp ((hmem e.1).mpr ⟨⟨e.2, he⟩, hfirst⟩)
  · exact .inr ((pairwise_append.mp hordered).2.2 _ hs r (by simp))
  · exact .inl (mem_singleton.mp hs)

theorem lt_first_of_beforeUpperBound (hr : c.beforeUpperBound n = none) :
    ∀ e ∈ held, n < e.1.first := by
  intro e he
  have hnone := filter_eq_nil_iff.mp (getLast?_eq_none_iff.mp hr) e.1
    (h.collection ▸ mem_map_of_mem he)
  simpa using hnone

theorem firstBlockNum_le (he : e ∈ held) : c.firstBlockNum ≤ e.1.first := by
  rw [firstBlockNum, h.collection]
  cases held with
  | nil => cases he
  | cons e' held =>
    obtain rfl | hmem := mem_cons.mp he
    · exact le_rfl
    · exact (h.valid e' (by simp)).1.trans ((pairwise_cons.mp h.ordered).1 e hmem).le

theorem opened (hb : (r, b) ∈ held) :
    Tracks max held { c with activeIndex := some (c.collection.idxOf r), active := b } := by
  refine { h with active := fun i hi => ⟨r, ?_⟩ }
  cases hi
  have hget := getElem?_idxOf (h.collection ▸ mem_map_of_mem hb : r ∈ c.collection)
  rw [h.collection, getElem?_map, map_eq_some_iff] at hget
  obtain ⟨e, he, hrange⟩ := hget
  rw [h.collection, he, h.eq_of_range (mem_of_getElem? he) hb hrange]

theorem openFor (hn : held ≠ [] ∨ n < 2 ^ 32 - 1) :
    ∃ c', c.openFor n = .returns (held.position n, c') ∧ Tracks max held c' := by
  unfold LogCatalog.openFor
  cases hbefore : c.beforeUpperBound n with
  | none =>
    have hlt := h.lt_first_of_beforeUpperBound hbefore
    rw [if_pos, position_eq_none fun e he hholds => (hlt e he).not_ge hholds.1]
    · exact ⟨c, rfl, h⟩
    · rw [firstBlockNum, h.collection]
      cases held with
      | nil => simpa using hn
      | cons e held => simpa using hlt e (by simp)
  | some r =>
    obtain ⟨hfirst, ⟨b, hb⟩, hbelow⟩ := h.first_le_of_beforeUpperBound hbefore
    rw [if_neg ((h.firstBlockNum_le hb).trans hfirst).not_gt]
    dsimp only
    split_ifs with hlast
    · rw [(h.files r b).mpr hb]
      have hopened := h.opened hb
      exact ⟨_, congrArg _ (hopened.readActive hb ⟨hfirst, hlast⟩), hopened⟩
    · rw [position_eq_none fun e he hholds => ?_]
      · exact ⟨c, rfl, h⟩
      · obtain heq | hlt := hbelow e he hholds.1
        · exact hlast (heq ▸ hholds.2)
        · exact (hlt.trans_le (hfirst.trans hholds.2)).false

theorem getBlockPosition (hn : held ≠ [] ∨ n < 2 ^ 32 - 1) :
    ∃ c', c.getBlockPosition n = .returns (held.position n, c') ∧ Tracks max held c' := by
  unfold LogCatalog.getBlockPosition
  cases hactive : c.activeIndex with
  | none => exact h.openFor hn
  | some i =>
    obtain ⟨r, hr⟩ := h.active i hactive
    have hget : c.collection[i]? = some r := by rw [h.collection, getElem?_map, hr]; rfl
    dsimp only
    rw [hget]
    dsimp only
    split_ifs with hholds
    · exact ⟨c, congrArg _ (h.readActive (mem_of_getElem? hr) hholds), h⟩
    · exact h.openFor hn

end

theorem getBlockPosition_undefined (h : Tracks max [] c) (hn : 2 ^ 32 - 1 ≤ n) :
    c.getBlockPosition n = .undefined := by
  have hactive : c.activeIndex = none := by
    by_contra hsome
    obtain ⟨i, hi⟩ := ne_none_iff_exists'.mp hsome
    obtain ⟨r, hr⟩ := h.active i hi
    cases hr
  have hempty : c.collection = [] := h.collection
  have hge : ¬ n < c.firstBlockNum := by simpa [firstBlockNum, hempty] using hn
  simp [LogCatalog.getBlockPosition, hactive, LogCatalog.openFor, hge, beforeUpperBound, hempty]

theorem emplace (h : Tracks max held c) (hr : held.Follows r b) :
    Tracks max (held ++ [(r, b)])
      { c with retainedDir := c.retainedDir.renameIfNotExists r b
               collection := emplaceRange c.collection r } := by
  have hlt : ∀ e ∈ held, e.1.first < r.first := fun e he =>
    (h.valid e he).1.trans_lt (hr.2 e he)
  have hnone : c.retainedDir r = none := by
    by_contra hsome
    obtain ⟨b', hb'⟩ := ne_none_iff_exists'.mp hsome
    exact (hlt _ ((h.files r b').mp hb')).false
  constructor
  case max_eq => exact h.max_eq
  case collection =>
    have hall : ∀ s ∈ c.collection, s.first < r.first := by
      intro s hs
      rw [h.collection] at hs
      obtain ⟨e, he, rfl⟩ := mem_map.mp hs
      exact hlt e he
    rw [emplaceRange, if_neg, filter_eq_self.mpr (by simpa using hall),
      filter_eq_nil_iff.mpr (by simpa using fun s hs => (hall s hs).le), h.collection,
      map_append]
    · rfl
    · intro hmem
      obtain ⟨s, hs, heq⟩ := mem_map.mp hmem
      exact (hall s hs).ne heq
  case ordered =>
    exact pairwise_append.mpr ⟨h.ordered, pairwise_singleton _ _, by simpa using hr.2⟩
  case valid => exact forall_mem_append.mpr ⟨h.valid, forall_mem_singleton.mpr hr.1⟩
  case files =>
    intro s b'
    simp only [renameIfNotExists, hnone, isSome_none, Bool.false_eq_true, if_false,
      Function.update_apply, mem_append, mem_singleton, Prod.mk.injEq, ← h.files]
    split_ifs with hs
    · simp [hs, hnone, eq_comm]
    · simp [hs]
  case active =>
    intro i hi
    obtain ⟨s, hs⟩ := h.active i hi
    exact ⟨s, (getElem?_append_left (List.getElem?_eq_some_iff.mp hs).1).trans hs⟩

end Tracks

theorem foldlM_retire {rs : List LogRange} (hnodup : rs.Nodup)
    (hfiles : ∀ r ∈ rs, (c.retainedDir r).isSome) :
    rs.foldlM retire c = .returns { c with retainedDir := c.retainedDir.removeAll rs } := by
  induction rs generalizing c with
  | nil =>
    simp
    rfl
  | cons r rs ih =>
    obtain ⟨hr, hnodup⟩ := nodup_cons.mp hnodup
    have hretire : c.retire r = .returns { c with retainedDir := c.retainedDir.removeAll [r] } := by
      simp [retire, hfiles r (by simp)]
    rw [foldlM_cons, hretire]
    refine (ih hnodup fun s hs => ?_).trans ?_
    · have hne : s ≠ r := fun heq => hr (heq ▸ hs)
      simpa [removeAll, hne] using hfiles s (by simp [hs])
    · congr 2
      funext s
      by_cases hs : s = r <;> simp [removeAll, hs]

section
variable (h : Tracks max held c)
include h

theorem Tracks.eraseOldest (k : ℕ) :
    ∃ c', (c.collection.take k).foldlM retire c = .returns c' ∧ Tracks max (held.drop k) { c' with
        collection := c'.collection.drop k
        activeIndex := c'.activeIndex.bind fun i => if i < k then none else some (i - k) } := by
  have hnodup : (held.map Prod.fst).Nodup := by
    refine pairwise_map.mpr (h.ordered.imp_of_mem fun {e e'} he _ hlt heq => ?_)
    exact ((h.valid e he).1.trans_lt hlt).ne (congrArg LogRange.first heq)
  have htake : c.collection.take k = (held.take k).map Prod.fst := by
    rw [h.collection, map_take]
  have hfold := @foldlM_retire c (c.collection.take k)
    (h.collection ▸ hnodup.sublist (take_sublist _ _)) (by
      intro r hr
      rw [htake] at hr
      obtain ⟨e, he, rfl⟩ := mem_map.mp hr
      rw [(h.files e.1 e.2).mpr (mem_of_mem_take he)]
      rfl)
  refine ⟨_, hfold, h.max_eq, ?_, h.ordered.sublist (drop_sublist _ _),
    fun e he => h.valid e (mem_of_mem_drop he), fun r b => ?_, fun i hi => ?_⟩
  · exact (congrArg (drop k) h.collection).trans (map_drop ..).symm
  · have hsplit := nodup_append.mp
      (show ((held.take k).map Prod.fst ++ (held.drop k).map Prod.fst).Nodup by
        rwa [← map_append, take_append_drop])
    have hmem := h.files r b
    rw [← take_append_drop k held, mem_append] at hmem
    simp only [removeAll, htake]
    split_ifs with hr
    · simp only [false_iff]
      exact fun hb => hsplit.2.2 r hr r (mem_map_of_mem hb) rfl
    · rw [hmem, or_iff_right fun hb => hr (mem_map_of_mem hb)]
  · obtain ⟨j, hj, hi⟩ := bind_eq_some_iff.mp hi
    split_ifs at hi with hlt
    cases hi
    obtain ⟨r, hr⟩ := h.active j hj
    exact ⟨r, by rw [getElem?_drop, Nat.add_sub_cancel' (not_lt.mp hlt)]; exact hr⟩

theorem Tracks.add (hr : held.Follows r b) :
    ∃ c', c.add r b = .returns c' ∧ Tracks max (held.add max r b) c' := by
  have hnew := h.emplace hr
  have hlength : (emplaceRange c.collection r).length = held.length + 1 := by
    simpa using congrArg length hnew.collection
  have hitems : (if 0 < c.maxRetainedFiles then held.length + 1 - c.maxRetainedFiles
      else held.length + 1) = held.length + 1 - max := by
    rw [h.max_eq]
    split_ifs <;> omega
  unfold LogCatalog.add
  dsimp only
  rw [hlength, hitems]
  split_ifs with hmax
  · obtain ⟨c', hfold, hc'⟩ := hnew.eraseOldest (held.length + 1 - max)
    exact ⟨_, Outcome.bind_eq_returns.mpr ⟨c', hfold, rfl⟩, hc'⟩
  · rw [Held.add, Nat.sub_eq_zero_of_le (by have := h.max_eq; omega)]
    exact ⟨_, rfl, hnew⟩

theorem Tracks.without {rs : List LogRange} (hrs : ∀ e ∈ held, e.1 ∉ rs ↔ e.1.last < n) :
    Tracks max (held.filter fun e => e.1.last < n) (c.without rs) := by
  refine ⟨h.max_eq, ?_, h.ordered.filter _, fun e he => h.valid e (mem_filter.mp he).1,
    fun r b => ?_, fun i hi => by cases hi⟩
  · change c.collection.filter _ = _
    rw [h.collection, List.filter_map]
    exact congrArg _ (filter_congr fun e he => decide_eq_decide.mpr (hrs e he))
  · simp only [LogCatalog.without, removeAll, mem_filter, decide_eq_true_eq, ← h.files]
    split_ifs with hr
    · simp only [false_iff, not_and]
      exact fun hb hlt => (hrs (r, b) ((h.files r b).mp hb)).mpr hlt hr
    · exact ⟨fun hb => ⟨hb, (hrs (r, b) ((h.files r b).mp hb)).mp hr⟩, And.left⟩

theorem Tracks.truncate (n : ℕ) :
    ∃ first c', c.truncate n = .returns (first, c') ∧
      Tracks max (held.filter fun e => e.1.last < n) c' := by
  have habove : ∀ e ∈ held, e.1 ∉ (c.collection.filter fun r => n < r.first) ↔ e.1.first ≤ n := by
    intro e he
    have hmem : e.1 ∈ c.collection := h.collection ▸ mem_map_of_mem he
    simp [hmem]
  have hvalid : ∀ e ∈ held, e.1.first ≤ e.1.last := fun e he => (h.valid e he).1
  unfold LogCatalog.truncate
  split_ifs with hempty
  · have hnil : held = [] := map_eq_nil_iff.mp (h.collection ▸ hempty)
    subst hnil
    exact ⟨0, c, rfl, h⟩
  cases hbefore : c.beforeUpperBound n with
  | none =>
    have hlt := h.lt_first_of_beforeUpperBound hbefore
    refine ⟨0, _, rfl, h.without fun e he => (habove e he).trans ?_⟩
    have := hlt e he
    have := hvalid e he
    omega
  | some r =>
    obtain ⟨hfirst, ⟨b, hb⟩, hbelow⟩ := h.first_le_of_beforeUpperBound hbefore
    dsimp only
    split_ifs with hlast hfile
    · refine ⟨0, _, rfl, h.without fun e he => (habove e he).trans ⟨fun hle => ?_, fun hlt => ?_⟩⟩
      · obtain heq | hlt := hbelow e he hle
        · exact heq ▸ hlast
        · exact hlt.trans_le hfirst
      · exact (hvalid e he).trans hlt.le
    · refine ⟨r.first, _, rfl, h.without fun e he => ?_⟩
      rw [mem_cons, not_or, habove e he]
      constructor
      · rintro ⟨hne, hle⟩
        exact ((hbelow e he hle).resolve_left hne).trans_le hfirst
      · intro hlt
        exact ⟨fun heq => hlast (heq ▸ hlt), (hvalid e he).trans hlt.le⟩
    · exact absurd (by rw [(h.files r b).mpr hb]; rfl) hfile

end

theorem Reaches.tracks (h : Reaches max held c) : Tracks max held c := by
  induction h with
  | fresh archives =>
    exact ⟨rfl, rfl, .nil, by simp, by simp [LogCatalog.fresh], fun i hi => by cases hi⟩
  | add _ hr hadd ih =>
    obtain ⟨c', hc', htracks⟩ := ih.add hr
    exact Outcome.returns.inj (hadd.symm.trans hc') ▸ htracks
  | @getBlockPosition held c c' n answer _ hget ih =>
    by_cases hn : held ≠ [] ∨ n < 2 ^ 32 - 1
    · obtain ⟨c'', hc'', htracks⟩ := ih.getBlockPosition hn
      cases hget.symm.trans hc''
      exact htracks
    · obtain ⟨hnil, hlast⟩ := not_or.mp hn
      obtain rfl := not_not.mp hnil
      rw [ih.getBlockPosition_undefined (not_lt.mp hlast)] at hget
      cases hget
  | truncate _ htruncate ih =>
    obtain ⟨first, c', hc', htracks⟩ := ih.truncate _
    cases htruncate.symm.trans hc'
    exact htracks

/-- The catalog keeps the most recent ranges and finds the blocks in them, except that an empty
one must not be asked for the greatest number. -/
theorem lookups_right_iff (h : Reaches max held c) :
    c.collection = held.map Prod.fst ∧
    (∀ n < 2 ^ 32, (∃ c', c.getBlockPosition n = .returns (held.position n, c')) ↔
      held ≠ [] ∨ n ≠ 2 ^ 32 - 1) ∧
    (∀ r b, held.Follows r b → ∃ c', c.add r b = .returns c' ∧
      c'.collection = (c.collection ++ [r]).drop (c.collection.length + 1 - max) ∧
      c'.collection.length ≤ max) ∧
    ∀ n, ∃ first c', c.truncate n = .returns (first, c') ∧
      c'.collection = c.collection.filter fun r => r.last < n := by
  have ht := h.tracks
  refine ⟨ht.collection, fun n hn => ⟨?_, fun hdefined => ?_⟩, fun r b hr => ?_, fun n => ?_⟩
  · rintro ⟨c', hget⟩
    by_contra hundefined
    obtain ⟨rfl, hlast⟩ : held = [] ∧ n = 2 ^ 32 - 1 := by simpa using hundefined
    rw [ht.getBlockPosition_undefined hlast.ge] at hget
    cases hget
  · obtain ⟨c', hget, -⟩ := ht.getBlockPosition (n := n) (hdefined.imp_right fun hne => by omega)
    exact ⟨c', hget⟩
  · obtain ⟨c', hadd, hc'⟩ := ht.add hr
    have hcollection : c'.collection =
        (c.collection ++ [r]).drop (c.collection.length + 1 - max) := by
      rw [hc'.collection, ht.collection, Held.add, map_drop, map_append, length_map]
      rfl
    refine ⟨c', hadd, hcollection, ?_⟩
    rw [hcollection, length_drop, length_append, length_singleton]
    omega
  · obtain ⟨first, c', htruncate, hc'⟩ := ht.truncate n
    refine ⟨first, c', htruncate, ?_⟩
    rw [hc'.collection, ht.collection, List.filter_map]
    rfl

theorem second_range_found :
    ∃ c, Reaches 1 [(⟨3, 4⟩, ⟨3, [10, 20]⟩)] c ∧ c.collection = [⟨3, 4⟩] ∧
      ∃ c', c.getBlockPosition 4 = .returns (some 20, c') := by
  have hfirst : Reaches 1 [(⟨1, 2⟩, ⟨1, [10, 20]⟩)] _ :=
    .add (.fresh false) (by simp [Held.Follows, LogBundle.ValidFor]) rfl
  have hsecond : Reaches 1 [(⟨3, 4⟩, ⟨3, [10, 20]⟩)] _ :=
    .add hfirst (by simp [Held.Follows, LogBundle.ValidFor]) rfl
  obtain ⟨hcollection, hget, -⟩ := lookups_right_iff hsecond
  exact ⟨_, hsecond, hcollection, (hget 4 (by norm_num)).mpr (.inr (by norm_num))⟩

theorem empty_catalog_undefined : Reaches 1 [] (fresh 1 false) ∧
    Held.position [] (2 ^ 32 - 1) = none ∧
    (fresh 1 false).getBlockPosition (2 ^ 32 - 1) = .undefined :=
  ⟨.fresh false, rfl, rfl⟩

end LogCatalog

end FlonCore
