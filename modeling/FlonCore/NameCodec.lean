import FlonCore.Names
import Mathlib.Data.Nat.Digits.Defs

/-!
# The characters of a name

From the last character on, the symbols of a name are a number below 16 and twelve digits in
base 32. Reading a string, writing it and cutting off the part after a dot are operations on
this list of symbols.
-/

namespace FlonCore

open List UInt64
def nameChar (k : ℕ) : Char := charmap.getD k '.'

def symbol (c : Char) : ℕ := (charToSymbol c).toNat

theorem symbol_lt (c : Char) : symbol c < 32 := by
  unfold symbol charToSymbol
  split_ifs with hletter hdigit
  · have hle : c.toNat ≤ 'z'.toNat := hletter.2
    simp at hle ⊢
    omega
  · have hle : c.toNat ≤ '5'.toNat := hdigit.2
    simp at hle ⊢
    omega
  · decide

theorem symbol_nameChar {k : ℕ} (h : k < 32) : symbol (nameChar k) = k :=
  (by decide : ∀ k : Fin 32, symbol (nameChar k) = k) ⟨k, h⟩

theorem forall_charmap {P : Char → Prop} [DecidablePred P]
    (h : (charmap.all fun c => decide (P c)) = true) : ∀ c ∈ charmap, P c :=
  fun c hc => of_decide_eq_true (all_eq_true.mp h c hc)

theorem nameChar_symbol : ∀ c ∈ charmap, nameChar (symbol c) = c := forall_charmap (by decide)

theorem map_nameChar {l : List Char} (h : ∀ c ∈ l, c ∈ charmap) :
    (l.map symbol).map nameChar = l := by
  rw [map_map]
  exact (map_congr_left fun c hc => nameChar_symbol c (h c hc)).trans (map_id l)

theorem mem_charmap {c : Char} : c ∈ charmap ↔ c = '.' ∨ '1' ≤ c ∧ c ≤ '5' ∨ 'a' ≤ c ∧ c ≤ 'z' := by
  constructor
  · exact forall_charmap (P := fun c => c = '.' ∨ '1' ≤ c ∧ c ≤ '5' ∨ 'a' ≤ c ∧ c ≤ 'z')
      (by decide) c
  · have hdigits : ∀ n < 54, 49 ≤ n → Char.ofNat n ∈ charmap := by decide
    have hletters : ∀ n < 123, 97 ≤ n → Char.ofNat n ∈ charmap := by decide
    rw [← Char.ofNat_toNat c]
    rintro (hdot | ⟨hlow, hhigh⟩ | ⟨hlow, hhigh⟩)
    · rw [hdot]
      decide
    · rw [Char.ofNat_toNat] at hlow hhigh
      exact hdigits c.toNat (Nat.lt_succ_of_le hhigh) hlow
    · rw [Char.ofNat_toNat] at hlow hhigh
      exact hletters c.toNat (Nat.lt_succ_of_le hhigh) hlow

theorem nameChar_mem {k : ℕ} (h : k < 32) : nameChar k ∈ charmap :=
  (by decide : ∀ k : Fin 32, nameChar k ∈ charmap) ⟨k, h⟩

def symbols : ℕ → ℕ → List ℕ
  | 0, _ => []
  | n + 1, w => w % 32 :: symbols n (w / 32)

theorem length_symbols (n w : ℕ) : (symbols n w).length = n := by
  induction n generalizing w with
  | zero => rfl
  | succ n ih => rw [symbols, length_cons, ih]

theorem ofDigits_symbols {n w : ℕ} (h : w < 32 ^ n) : Nat.ofDigits 32 (symbols n w) = w := by
  induction n generalizing w with
  | zero => simpa [symbols, eq_comm] using h
  | succ n ih =>
    rw [symbols, Nat.ofDigits_cons, ih (by rw [pow_succ] at h; omega)]
    exact Nat.mod_add_div w 32

variable {l : List ℕ}

theorem symbols_ofDigits (h : ∀ d ∈ l, d < 32) : symbols l.length (Nat.ofDigits 32 l) = l := by
  induction l with
  | nil => rfl
  | cons d l ih =>
    obtain ⟨hd, hl⟩ := forall_mem_cons.mp h
    have hmod : (d + 32 * Nat.ofDigits 32 l) % 32 = d := by omega
    have hdiv : (d + 32 * Nat.ofDigits 32 l) / 32 = Nat.ofDigits 32 l := by omega
    rw [length_cons, symbols, Nat.ofDigits_cons, hmod, hdiv, ih hl]

theorem lt_of_mem_symbols {n w d : ℕ} (h : d ∈ symbols n w) : d < 32 := by
  induction n generalizing w with
  | zero => cases h
  | succ n ih =>
    obtain rfl | h := mem_cons.mp h
    · exact Nat.mod_lt w (by decide)
    · exact ih h

theorem symbols_cleared {i n : ℕ} (w : ℕ) (h : i ≤ n) :
    symbols n (w / 32 ^ i * 32 ^ i) = replicate i 0 ++ (symbols n w).drop i := by
  induction i generalizing n w with
  | zero => simp
  | succ i ih =>
    obtain ⟨n, rfl⟩ : ∃ m, n = m + 1 := ⟨n - 1, by omega⟩
    have hmod : w / 32 ^ (i + 1) * 32 ^ (i + 1) % 32 = 0 :=
      Nat.mod_eq_zero_of_dvd (Dvd.dvd.mul_left (dvd_pow_self 32 (by omega)) _)
    have hdiv : w / 32 ^ (i + 1) * 32 ^ (i + 1) / 32 = w / 32 / 32 ^ i * 32 ^ i := by
      rw [pow_succ', ← Nat.div_div_eq_div_mul, mul_left_comm, Nat.mul_div_cancel_left _ (by decide)]
    rw [symbols, hmod, hdiv, ih _ (by omega), replicate_succ, symbols]
    rfl

variable {value : UInt64}

def lows (value : UInt64) : List ℕ := value.toNat % 16 :: symbols 12 (value.toNat / 16)

theorem length_lows : (lows value).length = 13 := by
  rw [lows, length_cons, length_symbols]

theorem lt_of_mem_lows {d : ℕ} (h : d ∈ lows value) : d < 32 := by
  obtain rfl | h := mem_cons.mp h
  · omega
  · exact lt_of_mem_symbols h

theorem lows_eq {d : ℕ} (hd : d < 16) (hl : ∀ k ∈ l, k < 32) (hlen : l.length = 12)
    (h : value.toNat = d + 16 * Nat.ofDigits 32 l) : lows value = d :: l := by
  have hmod : value.toNat % 16 = d := by omega
  have hdiv : value.toNat / 16 = Nat.ofDigits 32 l := by omega
  rw [lows, hmod, hdiv, ← hlen, symbols_ofDigits hl]

theorem toNat_and_31 (x : UInt64) : (x &&& 0x1f).toNat = x.toNat % 32 :=
  (UInt64.toNat_and ..).trans (Nat.and_two_pow_sub_one_eq_mod x.toNat 5)

theorem toNat_and_15 (x : UInt64) : (x &&& 0x0f).toNat = x.toNat % 16 :=
  (UInt64.toNat_and ..).trans (Nat.and_two_pow_sub_one_eq_mod x.toNat 4)

theorem nameToStringLoop_eq (n : ℕ) (tmp : UInt64) (str : List Char) :
    nameToStringLoop n 0x1f 5 tmp str = ((symbols n tmp.toNat).map nameChar).reverse ++ str := by
  induction n generalizing tmp str with
  | zero => rfl
  | succ n ih =>
    have hshift : (tmp >>> 5).toNat = tmp.toNat / 32 := by
      rw [UInt64.toNat_shiftRight, Nat.shiftRight_eq_div_pow]
      rfl
    rw [nameToStringLoop, ih, toNat_and_31, hshift, symbols, map_cons, reverse_cons, append_assoc]
    rfl

theorem nameToString_eq (value : UInt64) :
    nameToString value = (((lows value).map nameChar).dropWhile (· == '.')).reverse := by
  have hshift : (value >>> 4).toNat = value.toNat / 16 := by
    rw [UInt64.toNat_shiftRight, Nat.shiftRight_eq_div_pow]
    rfl
  rw [nameToString, nameToStringLoop, nameToStringLoop_eq, toNat_and_15, hshift, List.rdropWhile,
    reverse_append, reverse_reverse]
  rfl

/-- The characters of a name are dots and its string, read backwards. -/
theorem exists_map_lows (value : UInt64) : ∃ k, k + (nameToString value).length = 13 ∧
    (lows value).map nameChar = replicate k '.' ++ (nameToString value).reverse := by
  rw [nameToString_eq, reverse_reverse]
  have hsplit := takeWhile_append_dropWhile (p := (· == '.')) (l := (lows value).map nameChar)
  refine ⟨((lows value).map nameChar).takeWhile (· == '.') |>.length, ?_, ?_⟩
  · rw [length_reverse, ← length_append, hsplit, length_map, length_lows]
  · nth_rewrite 1 [← hsplit]
    congr 1
    refine eq_replicate_iff.mpr ⟨rfl, fun c hc => ?_⟩
    simpa using mem_takeWhile_imp hc

variable {str : List Char}

def symbolsValue (acc : ℕ) (str : List Char) : ℕ :=
  str.foldl (fun a c => symbol c + 32 * a) acc

theorem symbolsValue_eq (str : List Char) :
    symbolsValue 0 str = Nat.ofDigits 32 (str.reverse.map symbol) := by
  rw [symbolsValue, Nat.ofDigits_eq_foldr, foldr_map, foldr_reverse]
  rfl

theorem stringToNameLoop_append (str rest : List Char) {i acc : ℕ} {n : UInt64}
    (hlen : i + str.length ≤ 12) (hn : n.toNat = acc * 2 ^ (64 - 5 * i)) (hacc : acc < 32 ^ i) :
    ∃ m : UInt64, stringToNameLoop i (str ++ rest) n =
        stringToNameLoop (i + str.length) rest m ∧
      m.toNat = symbolsValue acc str * 2 ^ (64 - 5 * (i + str.length)) := by
  induction str generalizing i acc n with
  | nil => exact ⟨n, rfl, hn⟩
  | cons c str ih =>
    rw [length_cons] at hlen ⊢
    have hsymbol := symbol_lt c
    have hpow : 2 ^ (64 - 5 * i) = 32 * 2 ^ (64 - 5 * (i + 1)) := by
      rw [show 64 - 5 * i = 64 - 5 * (i + 1) + 5 by omega, pow_add]
      omega
    have hstep : (n ||| ((charToSymbol c &&& 0x1f) <<< UInt64.ofNat (64 - 5 * (i + 1)))).toNat =
        (symbol c + 32 * acc) * 2 ^ (64 - 5 * (i + 1)) := by
      have hand : (charToSymbol c &&& 0x1f).toNat = symbol c :=
        (toNat_and_31 _).trans (Nat.mod_eq_of_lt hsymbol)
      have hsmall : symbol c * 2 ^ (64 - 5 * (i + 1)) < 2 ^ (64 - 5 * i) := by
        rw [hpow]
        exact Nat.mul_lt_mul_of_pos_right hsymbol (by positivity)
      have hle : 2 ^ (64 - 5 * i) ≤ 2 ^ 64 := Nat.pow_le_pow_right (by decide) (by omega)
      have hmod : (64 - 5 * (i + 1)) % 64 = 64 - 5 * (i + 1) := Nat.mod_eq_of_lt (by omega)
      rw [UInt64.toNat_or, UInt64.toNat_shiftLeft, hand,
        toNat_ofNat_of_lt' (by simp only [UInt64.size]; omega), hmod, Nat.shiftLeft_eq,
        Nat.mod_eq_of_lt (hsmall.trans_le hle), hn, Nat.mul_comm acc,
        ← Nat.two_pow_add_eq_or_of_lt hsmall, hpow]
      ring
    have hacc' : symbol c + 32 * acc < 32 ^ (i + 1) := by
      omega
    obtain ⟨m, hloop, hm⟩ := ih (by omega) hstep hacc'
    refine ⟨m, ?_, ?_⟩
    · rw [cons_append, stringToNameLoop.eq_3 _ _ _ _ (by omega), hloop]
      congr 1
      omega
    · rw [hm, show i + 1 + str.length = i + (str.length + 1) by omega]
      rfl

/-- The value of a string in terms of its symbols, filled up with zeros. -/
theorem toNat_stringToNameLoop {d : ℕ} (hlen : str.length ≤ 13)
    (h : replicate (13 - str.length) 0 ++ str.reverse.map symbol =
      d :: l) : (stringToNameLoop 0 str 0).toNat = d % 16 + 16 * Nat.ofDigits 32 l := by
  by_cases hfull : str.length = 13
  · obtain ⟨init, c, rfl⟩ : ∃ init c, str = init ++ [c] := by
      refine ⟨str.dropLast, str.getLast (by rintro rfl; cases hfull), ?_⟩
      exact (dropLast_append_getLast _).symm
    rw [length_append, length_singleton] at hfull
    obtain ⟨m, hloop, hm⟩ := stringToNameLoop_append init [c] (by omega)
      (by simp : (0 : UInt64).toNat = 0 * 2 ^ (64 - 5 * 0)) (by simp)
    rw [zero_add, show init.length = 12 by omega] at hloop hm
    have hsplit : symbol c = d ∧
        init.reverse.map symbol = l := by
      simpa [show init.length = 12 by omega] using h
    have hand : (charToSymbol c &&& 0x0F).toNat = d % 16 := by
      rw [← hsplit.1]
      exact toNat_and_15 _
    rw [hloop, stringToNameLoop, UInt64.toNat_or, hand, hm, symbolsValue_eq, hsplit.2,
      Nat.mul_comm, ← Nat.two_pow_add_eq_or_of_lt (by omega)]
    omega
  · obtain ⟨m, hloop, hm⟩ := stringToNameLoop_append str [] (by omega)
      (by simp : (0 : UInt64).toNat = 0 * 2 ^ (64 - 5 * 0)) (by simp)
    rw [append_nil] at hloop
    obtain ⟨k, hk⟩ : ∃ k, 13 - str.length = k + 1 := ⟨12 - str.length, by omega⟩
    rw [hk, replicate_succ, cons_append] at h
    cases h
    rw [hloop, stringToNameLoop.eq_1, hm, symbolsValue_eq, Nat.ofDigits_append,
      Nat.ofDigits_replicate_zero, length_replicate,
      show 64 - 5 * (0 + str.length) = 5 * k + 4 by omega, pow_add, pow_mul]
    ring

theorem lows_eq_append (value : UInt64) : lows value =
    replicate (13 - (nameToString value).length) 0 ++
      (nameToString value).reverse.map symbol := by
  obtain ⟨k, hlen, hk⟩ := exists_map_lows value
  have hinverse : ((lows value).map nameChar).map symbol = lows value := by
    rw [map_map]
    refine (map_congr_left fun d hd => ?_).trans (map_id _)
    exact symbol_nameChar (lt_of_mem_lows hd)
  rw [← hinverse, hk, map_append, map_replicate, show 13 - _ = k by omega]
  rfl

theorem stringToNameLoop_nameToString (value : UInt64) :
    stringToNameLoop 0 (nameToString value) 0 = value := by
  have hlows := lows_eq_append value
  obtain ⟨k, hk, -⟩ := exists_map_lows value
  have hvalue := toNat_stringToNameLoop (by omega) (hlows.symm.trans (rfl : lows value = _ :: _))
  rw [Nat.mod_mod, ofDigits_symbols (by have := value.toNat_lt; omega)] at hvalue
  exact UInt64.toNat_inj.mp (hvalue.trans (by omega))

structure NameString (str : List Char) : Prop where
  length : str.length ≤ 13
  chars : ∀ c ∈ str, c ∈ charmap
  last : str.getLast? ≠ some '.'
  thirteenth : ∀ c, str[12]? = some c → c ≤ 'j'

theorem nameString_nameToString (value : UInt64) : NameString (nameToString value) := by
  obtain ⟨k, hlen, hk⟩ := exists_map_lows value
  refine ⟨by omega, fun c hc => ?_, fun hlast => ?_, fun c hc => ?_⟩
  · have hmem : c ∈ (lows value).map nameChar := by
      rw [hk]
      exact mem_append_right _ (mem_reverse.mpr hc)
    obtain ⟨d, hd, rfl⟩ := mem_map.mp hmem
    exact nameChar_mem (lt_of_mem_lows hd)
  · obtain ⟨hne, hdot⟩ := mem_getLast?_eq_getLast hlast
    exact rdropWhile_last_not _ _ hne (beq_iff_eq.mpr hdot.symm)
  · obtain ⟨hlt, rfl⟩ := List.getElem?_eq_some_iff.mp hc
    obtain rfl : k = 0 := by omega
    -- no dot was dropped, so the character is that of the lowest four bits
    have hhead := congrArg List.head? hk
    rw [replicate_zero, nil_append, head?_reverse, getLast?_eq_getElem?,
      show (nameToString value).length - 1 = 12 by omega, hc, lows, map_cons,
      head?_cons, Option.some.injEq] at hhead
    rw [← hhead]
    exact (by decide : ∀ k : Fin 16, nameChar k ≤ 'j') ⟨_, Nat.mod_lt _ (by decide)⟩

theorem dropWhile_dots (k : ℕ) (l : List Char) :
    (replicate k '.' ++ l).dropWhile (· == '.') = l.dropWhile (· == '.') := by
  induction k with
  | zero => rfl
  | succ k ih => exact ih

theorem nameToString_stringToNameLoop (h : NameString str) :
    nameToString (stringToNameLoop 0 str 0) = str := by
  have hlen := h.length
  obtain ⟨d, l, hcons⟩ : ∃ d l, replicate (13 - str.length) 0 ++
      str.reverse.map symbol = d :: l := by
    refine exists_cons_of_length_pos ?_
    simp only [length_append, length_replicate, length_map, length_reverse]
    omega
  have hlength := congrArg List.length hcons
  simp only [length_append, length_replicate, length_map, length_reverse, length_cons] at hlength
  have hall : ∀ k ∈ d :: l, k < 32 := by
    rw [← hcons]
    intro k hk
    obtain hk | hk := mem_append.mp hk
    · rw [eq_of_mem_replicate hk]
      decide
    · obtain ⟨c, -, rfl⟩ := mem_map.mp hk
      exact symbol_lt c
  have hd : d < 16 := by
    by_cases hfull : str.length = 13
    · have hhead := congrArg List.head? hcons
      obtain ⟨c, hc⟩ : ∃ c, str[12]? = some c := ⟨_, getElem?_eq_getElem (by omega)⟩
      rw [hfull, Nat.sub_self, replicate_zero, nil_append, head?_map, head?_reverse,
        getLast?_eq_getElem?, hfull, hc, Option.map_some, head?_cons, Option.some.injEq] at hhead
      rw [← hhead]
      exact forall_charmap (P := fun c => c ≤ 'j' → symbol c < 16) (by decide) c
        (h.chars c (mem_of_getElem? hc)) (h.thirteenth c hc)
    · obtain ⟨k, hk⟩ : ∃ k, 13 - str.length = k + 1 := ⟨12 - str.length, by omega⟩
      rw [hk, replicate_succ, cons_append] at hcons
      rw [← (List.cons.inj hcons).1]
      decide
  have hvalue := toNat_stringToNameLoop hlen hcons
  rw [Nat.mod_eq_of_lt hd] at hvalue
  have hlows := lows_eq hd (forall_mem_cons.mp hall).2 (by omega) hvalue
  have hchars : (str.reverse.map symbol).map nameChar = str.reverse :=
    map_nameChar fun c hc => h.chars c (mem_reverse.mp hc)
  have hdrop : str.reverse.dropWhile (· == '.') = str.reverse := by
    rw [dropWhile_eq_self_iff]
    intro hne
    have hlast := h.last
    rw [← head?_reverse, head?_eq_getElem?, getElem?_eq_getElem hne] at hlast
    simpa using hlast
  rw [nameToString_eq, hlows, ← hcons, map_append, hchars, map_replicate]
  exact congrArg List.reverse ((dropWhile_dots _ _).trans hdrop) |>.trans (reverse_reverse str)

theorem nameSet_eq_ok : nameSet str = .ok value ↔
    NameString str ∧ value = stringToNameLoop 0 str 0 := by
  rw [nameSet, seq_eq_ok, eosAssert_eq_ok, decide_eq_true_eq, seq_eq_ok, eosAssert_eq_ok,
    decide_eq_true_eq]
  constructor
  · rintro ⟨-, hnormal, hvalue⟩
    rw [← hnormal]
    refine ⟨nameString_nameToString _, ?_⟩
    rw [hnormal]
    exact (Except.ok.inj hvalue).symm
  · rintro ⟨hstr, rfl⟩
    exact ⟨hstr.length, nameToString_stringToNameLoop hstr, rfl⟩

variable {done rest : List ℕ}

/-- Where the `j`-th symbol from the right starts. -/
def symbolOffset (j : ℕ) : ℕ := if j = 0 then 0 else 5 * j - 1

def symbolMask (j : ℕ) : UInt64 := if j = 0 then 0x0f else 0x1f

/-- The symbols to the right of the `j`-th one become dots. -/
def clearBelow (value : UInt64) (j : ℕ) : UInt64 :=
  (value >>> UInt64.ofNat (symbolOffset j)) <<< UInt64.ofNat (symbolOffset j)

variable {j : ℕ}

theorem symbolOffset_lt (hj : j < 13) : symbolOffset j < 64 := by
  unfold symbolOffset
  split_ifs <;> omega

theorem toNat_shiftRight_symbolOffset (hj : j < 13) :
    (value >>> UInt64.ofNat (symbolOffset j)).toNat = value.toNat / 2 ^ symbolOffset j := by
  have hlt := symbolOffset_lt hj
  rw [UInt64.toNat_shiftRight, toNat_ofNat_of_lt' (by simp only [UInt64.size]; omega),
    Nat.mod_eq_of_lt hlt, Nat.shiftRight_eq_div_pow]

theorem getElem?_symbols {n i : ℕ} (w : ℕ) (h : i < n) :
    (symbols n w)[i]? = some (w / 32 ^ i % 32) := by
  induction i generalizing n w with
  | zero =>
    obtain ⟨n, rfl⟩ : ∃ m, n = m + 1 := ⟨n - 1, by omega⟩
    simp [symbols]
  | succ i ih =>
    obtain ⟨n, rfl⟩ : ∃ m, n = m + 1 := ⟨n - 1, by omega⟩
    rw [symbols, getElem?_cons_succ, ih _ (by omega), Nat.div_div_eq_div_mul, pow_succ']

theorem pow_symbolOffset (i : ℕ) : 2 ^ symbolOffset (i + 1) = 16 * 32 ^ i := by
  rw [symbolOffset, if_neg (by omega), show 5 * (i + 1) - 1 = 4 + 5 * i by omega, pow_add, pow_mul]
  rfl

theorem getElem?_lows (hj : j < 13) : (lows value)[j]? =
    some ((value >>> UInt64.ofNat (symbolOffset j)) &&& symbolMask j).toNat := by
  rw [UInt64.toNat_and, toNat_shiftRight_symbolOffset hj]
  cases j with
  | zero =>
    rw [show symbolOffset 0 = 0 from rfl, pow_zero, Nat.div_one]
    exact congrArg some (Nat.and_two_pow_sub_one_eq_mod value.toNat 4).symm
  | succ i =>
    rw [lows, getElem?_cons_succ, getElem?_symbols _ (by omega), pow_symbolOffset,
      Nat.div_div_eq_div_mul]
    exact congrArg some (Nat.and_two_pow_sub_one_eq_mod _ 5).symm

theorem lows_clearBelow (hj : j < 13) :
    lows (clearBelow value j) = replicate j 0 ++ (lows value).drop j := by
  have hlt := value.toNat_lt
  have hoffset := symbolOffset_lt hj
  have hclear : (clearBelow value j).toNat =
      value.toNat / 2 ^ symbolOffset j * 2 ^ symbolOffset j := by
    rw [clearBelow, UInt64.toNat_shiftLeft, toNat_shiftRight_symbolOffset hj,
      toNat_ofNat_of_lt' (by simp only [UInt64.size]; omega), Nat.mod_eq_of_lt hoffset,
      Nat.shiftLeft_eq]
    exact Nat.mod_eq_of_lt ((Nat.div_mul_le_self _ _).trans_lt hlt)
  cases j with
  | zero =>
    rw [lows, hclear]
    simp [symbolOffset, lows]
  | succ i =>
    rw [pow_symbolOffset, ← Nat.div_div_eq_div_mul, mul_left_comm] at hclear
    rw [lows, hclear, Nat.mul_mod_right, Nat.mul_div_cancel_left _ (by decide),
      symbols_cleared _ (by omega), lows, drop_succ_cons, replicate_succ]
    rfl

theorem prefixLoop_succ {n d : ℕ} {seen : Bool} (hlows : lows value = done ++ d :: rest)
    (hn : rest.length = n) :
    prefixLoop value (n + 1) (symbolOffset done.length) (symbolMask done.length) seen =
      if d = 0 ∧ seen = true then clearBelow value done.length
      else prefixLoop value n (symbolOffset (done.length + 1)) (symbolMask (done.length + 1))
        (seen || d != 0) := by
  have hlen := congrArg List.length hlows
  rw [length_lows, length_append, length_cons] at hlen
  have hd : (lows value)[done.length]? = _ := getElem?_lows (by omega)
  rw [hlows, getElem?_append_right le_rfl, Nat.sub_self, getElem?_cons_zero,
    Option.some.injEq] at hd
  have hzero : (value >>> UInt64.ofNat (symbolOffset done.length)) &&& symbolMask done.length = 0 ↔
      d = 0 := by
    rw [hd, ← UInt64.toNat_inj]
    rfl
  have hnext : (if symbolOffset done.length = 0 then 4 else symbolOffset done.length + 5) =
      symbolOffset (done.length + 1) := by
    unfold symbolOffset
    split_ifs <;> omega
  rw [prefixLoop]
  simp only [hzero, hnext]
  by_cases h0 : d = 0
  · cases seen <;> simp [h0, clearBelow, symbolMask]
  · simp [h0, bne_iff_ne.mpr h0, symbolMask]

theorem prefixLoop_append (done : List ℕ) {seg : List ℕ} {seen : Bool} {n : ℕ}
    (hn : rest.length = n) (hlows : lows value = done ++ (seg ++ rest))
    (hseg : (seen = false ∧ ∀ d ∈ seg, d = 0) ∨ ∀ d ∈ seg, d ≠ 0) :
    prefixLoop value (seg.length + n) (symbolOffset done.length) (symbolMask done.length) seen =
      prefixLoop value n (symbolOffset (done.length + seg.length))
        (symbolMask (done.length + seg.length)) (seen || seg.any (· != 0)) := by
  induction seg generalizing done seen with
  | nil => simp
  | cons d seg ih =>
    rw [cons_append] at hlows
    rw [length_cons, show seg.length + 1 + n = seg.length + n + 1 by omega,
      prefixLoop_succ hlows (by rw [length_append, hn]), if_neg]
    · have hrest : ((seen || d != 0) = false ∧ ∀ d ∈ seg, d = 0) ∨ ∀ d ∈ seg, d ≠ 0 := by
        rcases hseg with ⟨rfl, hseg⟩ | hseg
        · obtain ⟨rfl, hrest⟩ := forall_mem_cons.mp hseg
          exact .inl ⟨rfl, hrest⟩
        · exact .inr (forall_mem_cons.mp hseg).2
      have hstep := ih (done ++ [d]) (by rw [hlows, append_cons]) hrest
      rw [length_append, length_singleton] at hstep
      rw [hstep, any_cons, Bool.or_assoc,
        show done.length + 1 + seg.length = done.length + (seg.length + 1) by omega]
    · rintro ⟨rfl, rfl⟩
      rcases hseg with ⟨hseen, -⟩ | hseg
      · cases hseen
      · exact (forall_mem_cons.mp hseg).1 rfl

theorem symbol_eq_zero : ∀ c ∈ charmap, symbol c = 0 ↔ c = '.' := forall_charmap (by decide)

/-- The loop passes the dots and then the characters after the last dot of the string. -/
theorem namePrefix_eq {b a : List Char} (h : (nameToString value).reverse = b ++ a)
    (hb : '.' ∉ b) : namePrefix value =
      prefixLoop value a.length (symbolOffset (13 - a.length)) (symbolMask (13 - a.length))
        (b != []) := by
  have hname := nameString_nameToString value
  have hlows := lows_eq_append value
  have hlen := congrArg List.length h
  rw [length_reverse, length_append] at hlen
  have hbound := hname.length
  rw [h, map_append] at hlows
  have hnonzero : ∀ d ∈ b.map symbol, d ≠ 0 := by
    intro d hd hzero
    obtain ⟨c, hc, rfl⟩ := mem_map.mp hd
    have hmem : c ∈ charmap := hname.chars c (by
      rw [← mem_reverse, h]
      exact mem_append_left a hc)
    exact hb ((symbol_eq_zero c hmem).mp hzero ▸ hc)
  have hany : (b.map symbol).any (· != 0) = (b != []) := by
    cases b with
    | nil => rfl
    | cons c b =>
      have hc := hnonzero _ (mem_map_of_mem mem_cons_self)
      rw [map_cons, any_cons, bne_iff_ne.mpr hc]
      rfl
  have hdots : prefixLoop value _ (symbolOffset 0) (symbolMask 0) false = _ :=
    prefixLoop_append [] rfl hlows (.inl ⟨rfl, fun d hd => eq_of_mem_replicate hd⟩)
  have hchars : prefixLoop value _ _ _ false = _ :=
    prefixLoop_append _ rfl hlows (.inr hnonzero)
  simp only [length_append, length_map, length_replicate, length_nil,
    zero_add, hany, Bool.false_or, any_replicate, bne_self_eq_false, ite_self] at hdots hchars
  rw [show 13 - (nameToString value).length + (b.length + a.length) = 13 by omega] at hdots
  rw [show 13 - (nameToString value).length + b.length = 13 - a.length by omega] at hchars
  exact hdots.trans hchars

theorem nameToString_namePrefix (value : UInt64) :
    ('.' ∉ nameToString value → nameToString (namePrefix value) = nameToString value) ∧
    ∀ a b, nameToString value = a ++ '.' :: b → '.' ∉ b →
      nameToString (namePrefix value) = a.rdropWhile (· == '.') := by
  have hname := nameString_nameToString value
  refine ⟨fun hdot => ?_, fun a b hstr hb => ?_⟩
  · rw [namePrefix_eq (append_nil _).symm (by rwa [mem_reverse])]
    rfl
  · have hrev : (nameToString value).reverse = b.reverse ++ '.' :: a.reverse := by
      rw [hstr]
      simp
    have hne : b ≠ [] := by
      rintro rfl
      exact hname.last (by rw [hstr]; simp)
    have hlen := congrArg List.length hstr
    rw [length_append, length_cons] at hlen
    have hbound := hname.length
    have hlows := lows_eq_append value
    rw [hrev, map_append, map_cons, ← append_assoc] at hlows
    obtain ⟨done, hdone⟩ : ∃ done, done = replicate (13 - (nameToString value).length) 0 ++
      b.reverse.map symbol := ⟨_, rfl⟩
    rw [← hdone] at hlows
    have hj : 13 - ('.' :: a.reverse).length = done.length := by
      rw [hdone]
      simp only [length_append, length_replicate, length_map, length_reverse, length_cons]
      omega
    have hchars : (a.reverse.map symbol).map nameChar = a.reverse := by
      refine map_nameChar fun c hc => hname.chars c ?_
      rw [hstr]
      exact mem_append_left _ (mem_reverse.mp hc)
    have hlt : done.length < 13 := by
      rw [← hj, length_cons]
      omega
    rw [namePrefix_eq hrev (by rwa [mem_reverse]), hj, length_cons, prefixLoop_succ hlows
      (length_map _), if_pos ⟨rfl, by simpa using hne⟩, nameToString_eq, lows_clearBelow hlt, hlows,
      drop_left, map_append, map_cons, hchars, map_replicate, List.rdropWhile]
    exact congrArg List.reverse (dropWhile_dots _ _)

/-- A name is read back from its string; the strings that are read are those of at most thirteen
of the characters without a dot at the end, the thirteenth of them one of the first sixteen;
and the prefix of a name is what comes before the last dot of its string. -/
theorem name_codec (value : UInt64) :
    nameSet (nameToString value) = .ok value ∧
    (∀ str, (∃ v, nameSet str = .ok v) ↔ str.length ≤ 13 ∧
      (∀ c ∈ str, c = '.' ∨ '1' ≤ c ∧ c ≤ '5' ∨ 'a' ≤ c ∧ c ≤ 'z') ∧
      str.getLast? ≠ some '.' ∧ ∀ c, str[12]? = some c → c ≤ 'j') ∧
    ('.' ∉ nameToString value → nameToString (namePrefix value) = nameToString value) ∧
    ∀ a b, nameToString value = a ++ '.' :: b → '.' ∉ b →
      nameToString (namePrefix value) = a.rdropWhile (· == '.') := by
  refine ⟨?_, fun str => ?_, nameToString_namePrefix value⟩
  · exact nameSet_eq_ok.mpr
      ⟨nameString_nameToString value, (stringToNameLoop_nameToString value).symm⟩
  · simp only [← mem_charmap]
    constructor
    · rintro ⟨v, hv⟩
      obtain ⟨hlen, hchars, hlast, hj⟩ := (nameSet_eq_ok.mp hv).1
      exact ⟨hlen, hchars, hlast, hj⟩
    · rintro ⟨hlen, hchars, hlast, hj⟩
      exact ⟨_, nameSet_eq_ok.mpr ⟨⟨hlen, hchars, hlast, hj⟩, rfl⟩⟩

end FlonCore
