import Mathlib.Order.Basic
import Mathlib.Tactic

/-!
# Block numbers, identifiers, timestamps and digests

A block number is a 32-bit word. It is kept as a natural number and every
addition is reduced by `u32`. A block id is the 256-bit header digest whose
first four bytes, read big-endian, are overwritten by the block number, so the
number is the top word of the id. A block timestamp counts slots in 32 bits.
-/

namespace FlonCore

open BitVec List
abbrev BlockId := BitVec 256
abbrev Digest := BitVec 256
abbrev AccountName := UInt64

def u32 (n : ℕ) : ℕ := n % 2 ^ 32
theorem u32_of_lt {n : ℕ} (h : n < 2 ^ 32) : u32 n = n := Nat.mod_eq_of_lt h

def numFromId (id : BlockId) : ℕ := (id >>> 224).toNat

theorem numFromId_lt (id : BlockId) : numFromId id < 2 ^ 32 := by
  simp only [numFromId, toNat_ushiftRight, Nat.shiftRight_eq_div_pow]
  omega

def stampId (digest : Digest) (num : ℕ) : BlockId :=
  BitVec.ofNat 256 (num * 2 ^ 224 + digest.toNat % 2 ^ 224)

theorem numFromId_stampId (digest : Digest) {num : ℕ} (h : num < 2 ^ 32) :
    numFromId (stampId digest num) = num := by
  have hd : digest.toNat % 2 ^ 224 < 2 ^ 224 := Nat.mod_lt _ (by positivity)
  simp only [numFromId, stampId, toNat_ushiftRight, toNat_ofNat, Nat.shiftRight_eq_div_pow]
  generalize digest.toNat % 2 ^ 224 = r at hd
  omega

/-- The exception classes the modelled code throws. -/
inductive ExceptionKind
  | wasmExecutionError
  | invalidQcClaim
  | finalizerException
  | finalizerSafetyException
  | unknownKey
  | calcOverflowException
  | substractionInsufficentException
  | assetTypeException
  | txGasException
  | txGasUsageExceeded
  | transactionException
  | blockResourceExhausted
  | resourceExhaustedException
  | resourceLimitException
  | rateLimitingStateInconsistent
  | actionValidateException
  | blockCpuUsageExceeded
  | blockNetUsageExceeded
  | txCpuUsageExceeded
  | txNetUsageExceeded
  | deadlineException
  | permissionQueryException
  | unactivatedKeyType
  | accountNameExistsException
  | accountQueryException
  | missingAuthException
  | irrelevantAuthException
  | unlinkableMinPermissionAction
  | invalidContractVmType
  | invalidContractVmVersion
  | setExactCode
  | keyBlacklistException
  | snapshotException
  | tableOperationNotPermitted
  | invalidTablePayer
  | invalidTableIterator
  | tableAccessViolation
  | tableNotInCache
  | subjectiveBlockProductionException
  | unsatisfiedAuthorization
  | txIrrelevantSig
  | assertException
  | chainException
  | unlinkableBlockException
  | wrongProducer
  | producerScheduleException
  | invalidBlockHeaderExtension
  | invalidBlockExtension
  | illFormedProtocolFeatureActivation
  | protocolFeatureException
  | protocolFeatureValidationException
  | wrongSigningKey
  | actorWhitelistException
  | actorBlacklistException
  | configParseError
  | unsupportedFeature
  | outOfRangeException
  | unauthorizedRamUsageIncrease
  | illFormedAdditionalBlockSignaturesExtension
  | blockValidateException
  | producerDoubleConfirm
  | forkDatabaseException
  | forkDbBlockNotFound
  | nameTypeException
  | blockLogException
  | txResourceExhaustion
  | databaseException
  | pluginException
  /-- the `std::logic_error` of a table when a unique index has an equal key -/
  | uniquenessViolated
  /-- `std::ios_base::failure` -/
  | iosFailure
  /-- `std::bad_alloc` or `boost::interprocess::bad_alloc` -/
  | badAlloc
deriving DecidableEq, Repr

structure Failure where
  kind : ExceptionKind
  message : String
deriving DecidableEq, Repr

/-- `EOS_ASSERT`: throws unless the condition holds. -/
def eosAssert (condition : Bool) (kind : ExceptionKind) (message : String) : Except Failure Unit :=
  if condition then .ok () else .error ⟨kind, message⟩

@[simp] theorem eosAssert_eq_ok {condition : Bool} {kind : ExceptionKind} {message : String}
    {u : Unit} : eosAssert condition kind message = .ok u ↔ condition = true := by
  cases condition <;> simp [eosAssert]

variable {ε α β : Type} {f : α → Except ε β} {x : Except ε α}

theorem bind_eq_ok {b : β} : (x >>= f) = .ok b ↔ ∃ a, x = .ok a ∧ f a = .ok b := by
  cases x with
  | error e => simp [bind, Except.bind]
  | ok a => simp [bind, Except.bind]

theorem bind_eq_error {e : ε} :
    (x >>= f) = .error e ↔ x = .error e ∨ ∃ a, x = .ok a ∧ f a = .error e := by
  cases x with
  | error e => simp [bind, Except.bind]
  | ok a => simp [bind, Except.bind]

theorem eosAssert_eq_error {condition : Bool} {kind : ExceptionKind} {message : String}
    {e : Failure} :
    eosAssert condition kind message = .error e ↔ condition = false ∧ e = ⟨kind, message⟩ := by
  cases condition <;> simp [eosAssert, eq_comm]

theorem map_eq_ok {f : α → β} {b : β} : x.map f = .ok b ↔ ∃ a, x = .ok a ∧ f a = b := by
  cases x with
  | error e => simp [Except.map]
  | ok a => simp [Except.map]

theorem mapError_eq_ok {ε ε' α : Type} {x : Except ε α} {f : ε → ε'} {a : α} :
    x.mapError f = .ok a ↔ x = .ok a := by
  cases x <;> simp [Except.mapError]

theorem seq_eq_ok {x : Except ε Unit} {y : Except ε β} {b : β} :
    (x >>= fun _ => y) = .ok b ↔ x = .ok () ∧ y = .ok b := by
  rw [bind_eq_ok]
  exact ⟨fun ⟨_, hx, hy⟩ => ⟨hx, hy⟩, fun ⟨hx, hy⟩ => ⟨(), hx, hy⟩⟩

variable {l : List α}

theorem forM_eq_ok {f : α → Except ε Unit} : l.forM f = .ok () ↔ ∀ x ∈ l, f x = .ok () := by
  induction l with
  | nil => exact ⟨nofun, fun _ => rfl⟩
  | cons x l ih =>
    rw [forall_mem_cons, ← ih]
    exact seq_eq_ok

theorem foldlM_eq_ok_induction {f : α → β → Except ε α} {P : List β → α → Prop}
    (hstep : ∀ seen x s s', P seen s → f s x = .ok s' → P (seen ++ [x]) s') {l seen : List β}
    {s s' : α} (h : P seen s) (hrun : l.foldlM f s = .ok s') : P (seen ++ l) s' := by
  induction l generalizing seen s with
  | nil =>
    cases hrun
    rwa [append_nil]
  | cons x l ih =>
    rw [foldlM_cons, bind_eq_ok] at hrun
    obtain ⟨mid, hmid, hrun⟩ := hrun
    rw [append_cons]
    exact ih (hstep seen x s mid h hmid) hrun

theorem mapM_eq_ok {g : α → β} (h : ∀ x ∈ l, f x = .ok (g x)) : l.mapM f = .ok (l.map g) := by
  induction l with
  | nil => rfl
  | cons x l ih =>
    obtain ⟨hx, hl⟩ := forall_mem_cons.mp h
    rw [mapM_cons, hx, ih hl]
    rfl

theorem length_of_mapM_eq_ok {l' : List β} (h : l.mapM f = .ok l') : l'.length = l.length := by
  induction l generalizing l' with
  | nil =>
    cases h
    rfl
  | cons x l ih =>
    rw [mapM_cons] at h
    obtain ⟨y, -, h⟩ := bind_eq_ok.mp h
    obtain ⟨ys, hys, h⟩ := bind_eq_ok.mp h
    cases h
    rw [length_cons, length_cons, ih hys]

theorem isOk_iff : x.isOk = true ↔ ∃ a, x = .ok a := by
  cases x <;> simp [Except.isOk, Except.toBool]

def getRow {α : Type} (row : Option α) : Except Failure α :=
  match row with
  | some a => .ok a
  | none => .error ⟨.unknownKey, "unknown key"⟩

theorem getRow_eq_ok {row : Option α} {a : α} : getRow row = .ok a ↔ row = some a := by
  cases row <;> simp [getRow]

structure KeyWeight (Key : Type) where
  key : Key
  weight : UInt16
deriving DecidableEq, Repr

structure BlockTimestamp where
  slot : UInt32
deriving DecidableEq, Repr

namespace BlockTimestamp

theorem toNat_injective : Function.Injective fun t : BlockTimestamp => t.slot.toNat := by
  rintro ⟨a⟩ ⟨b⟩ h
  exact congrArg mk (UInt32.toNat_inj.mp h)

instance : LinearOrder BlockTimestamp :=
  LinearOrder.lift' (fun t => t.slot.toNat) toNat_injective

theorem lt_iff {a b : BlockTimestamp} : a < b ↔ a.slot.toNat < b.slot.toNat := Iff.rfl

def zero : BlockTimestamp := ⟨0⟩

instance : WellFoundedLT BlockTimestamp :=
  ⟨InvImage.wf (fun t : BlockTimestamp => t.slot.toNat) wellFounded_lt⟩

end BlockTimestamp
end FlonCore
