import TradeX.SymbolLoader
import TradeX.Oms

/-!
# The table of symbols

The constructor of `OrderManagementSystem` fills `symbolLookupTable` with the ids of the symbols
it has loaded, each at the `find_hash` of its symbol, and `find_id` reads it. `find_hash` takes the
first four characters as digits of five bits, the letters as 1 to 26, with no check : a character
below `@` sets all high bits, and so does the byte 255; one from the grave accent on also sets low
bits of the digit before it (`digit`), and what follows the fourth is ignored.

`table_writes_iff` : the writes of the constructor are in the table iff the first four characters
of every symbol are such that `InTable`. `lookup_exact_iff` : with symbols of up to four capitals
every listed symbol is found, and another string is not iff it does not read as a listed one
(`ReadsAs`).
-/

namespace TradeX.Oms

/-! ## The constructor -/

/-- A `uint32_t` stored in an `int`. -/
def intOf (value : UInt32) : ℤ :=
  if value.toNat < 2 ^ 31 then value.toNat else (value.toNat : ℤ) - 2 ^ 32

/-- `symbolLookupTable[find_hash(s.symbol)] = s.symbol_id`, a fault outside the table. -/
def writeSymbol (table : ℕ → ℤ) (s : SymbolRecord) : Except Fault (ℕ → ℤ) :=
  if findHash s.symbol < 880000 then
    .ok (Function.update table (findHash s.symbol) (intOf s.symbolId))
  else .error .badAccess

/-- The table, -1 everywhere, and then the loop over the symbols. -/
def fillTable (symbols : List SymbolRecord) : Except Fault (ℕ → ℤ) :=
  symbols.foldlM writeSymbol fun _ => -1

/-! ## The hash -/

/-- The `char_val` of position `i`, before it is cast to `uint32_t`. -/
def charVal (symbol : List UInt8) (i : ℕ) : ℤ :=
  match symbol[i]? with
  | some c => toupper c - 65 + 1
  | none => 0

/-- The digit of five bits at position `i` : the character's, with the bits that the next one has
beyond its five set in it. -/
def digit (symbol : List UInt8) (i : ℕ) : ℕ :=
  (charVal symbol i).toNat % 32 ||| if i < 3 then (charVal symbol (i + 1)).toNat / 32 else 0

/-- A pass of the loop of `find_hash`. -/
def pack (hash charVal : ℕ) : ℕ :=
  (hash <<< 5) % 2 ^ 32 ||| charVal

/-- The bits of `char_val`. -/
def charBits (symbol : List UInt8) (i : ℕ) : ℕ :=
  (charVal symbol i % 2 ^ 32).toNat

theorem findHash_eq (symbol : List UInt8) : findHash symbol =
    pack (pack (pack (pack 0 (charBits symbol 0)) (charBits symbol 1)) (charBits symbol 2))
      (charBits symbol 3) := by
  have hfold : findHash symbol =
      (List.range 4).foldl (fun hash i => pack hash (charBits symbol i)) 0 := by
    unfold findHash
    congr 1
    funext hash i
    unfold pack charBits charVal
    cases symbol[i]? <;> rfl
  rw [hfold]
  rfl

theorem toupper_bounds (c : UInt8) : -1 ≤ toupper c ∧ toupper c ≤ 255 := by
  have hlt : c.toNat < 256 := c.toNat_lt
  unfold toupper
  simp only [UInt8.le_iff_toNat_le, UInt8.reduceToNat]
  split_ifs <;> omega

theorem charVal_bounds (symbol : List UInt8) (i : ℕ) :
    -65 ≤ charVal symbol i ∧ charVal symbol i < 192 := by
  unfold charVal
  split
  next c _ =>
    have := toupper_bounds c
    omega
  next => omega

theorem charBits_of_nonneg {symbol : List UInt8} {i : ℕ} (h : 0 ≤ charVal symbol i) :
    charBits symbol i = (charVal symbol i).toNat := by
  have hlt := (charVal_bounds symbol i).2
  unfold charBits
  omega

theorem charBits_of_neg {symbol : List UInt8} {i : ℕ} (h : charVal symbol i < 0) :
    2 ^ 32 - 65 ≤ charBits symbol i := by
  have hle := (charVal_bounds symbol i).1
  unfold charBits
  omega

theorem charBits_lt (symbol : List UInt8) (i : ℕ) : charBits symbol i < 2 ^ 32 := by
  unfold charBits
  omega

/-! ### Characters of eight bits -/

/-- The bits below the fifth. -/
theorem mul_add_or {a b c : ℕ} (hb : b < 32) (hc : c < 32) :
    (32 * a + b) ||| c = 32 * a + (b ||| c) := by
  have hor : b ||| c < 2 ^ 5 := Nat.or_lt_two_pow (n := 5) hb hc
  have hshift : 32 * a = a <<< 5 := by rw [Nat.shiftLeft_eq, Nat.mul_comm]
  rw [hshift, Nat.shiftLeft_add_eq_or_of_lt (i := 5) hb, Nat.or_assoc,
    ← Nat.shiftLeft_add_eq_or_of_lt (i := 5) hor]

theorem pack_eq {hash : ℕ} (x : ℕ) (hh : hash < 2 ^ 27) :
    pack hash x = 32 * (hash ||| x / 32) + x % 32 := by
  have hmod : (hash <<< 5) % 2 ^ 32 = hash <<< 5 :=
    Nat.mod_eq_of_lt (by rw [Nat.shiftLeft_eq]; omega)
  have hx' : x = (x / 32) <<< 5 ||| x % 32 := by
    rw [← Nat.shiftLeft_add_eq_or_of_lt (i := 5) (Nat.mod_lt x (by decide)), Nat.shiftLeft_eq]
    omega
  have hlow : x % 32 < 2 ^ 5 := Nat.mod_lt x (by decide)
  rw [pack, hmod]
  conv_lhs => rw [hx']
  rw [← Nat.or_assoc, ← Nat.shiftLeft_or_distrib, ← Nat.shiftLeft_add_eq_or_of_lt (i := 5)
    hlow, Nat.shiftLeft_eq, Nat.mul_comm]

theorem digit_lt (symbol : List UInt8) (i : ℕ) : digit symbol i < 32 := by
  have hlt := charVal_bounds symbol (i + 1)
  refine Nat.or_lt_two_pow (n := 5) (Nat.mod_lt _ (by decide)) ?_
  split_ifs <;> omega

theorem toNat_charVal_lt (symbol : List UInt8) (i : ℕ) : (charVal symbol i).toNat < 192 := by
  have := charVal_bounds symbol i
  omega

/-- A pass of the loop : the digit of the character before is complete. -/
theorem pack_digit (symbol : List UInt8) {a i : ℕ} (ha : a < 2 ^ 21) (hi : i < 3) :
    pack (32 * a + (charVal symbol i).toNat % 32) (charVal symbol (i + 1)).toNat =
      32 * (32 * a + digit symbol i) + (charVal symbol (i + 1)).toNat % 32 := by
  have hlt := toNat_charVal_lt symbol (i + 1)
  have hmod : (charVal symbol i).toNat % 32 < 32 := Nat.mod_lt _ (by decide)
  rw [pack_eq _ (by omega), mul_add_or hmod (by omega), digit, if_pos hi]

/-- The hash of characters from `@` on. -/
theorem findHash_of_nonneg {symbol : List UInt8} (h : ∀ i < 4, 0 ≤ charVal symbol i) :
    findHash symbol = 2 ^ 20 * ((charVal symbol 0).toNat / 32) + 2 ^ 15 * digit symbol 0 +
      2 ^ 10 * digit symbol 1 + 2 ^ 5 * digit symbol 2 + digit symbol 3 := by
  have hfirst := toNat_charVal_lt symbol 0
  have hd₀ := digit_lt symbol 0
  have hd₁ := digit_lt symbol 1
  have h₀ : pack 0 (charVal symbol 0).toNat =
      32 * ((charVal symbol 0).toNat / 32) + (charVal symbol 0).toNat % 32 := by
    rw [pack_eq _ (by decide), Nat.zero_or]
  have hlast : (charVal symbol 3).toNat % 32 = digit symbol 3 := by
    rw [digit, if_neg (by decide), Nat.or_zero]
  rw [findHash_eq, charBits_of_nonneg (h 0 (by decide)), charBits_of_nonneg (h 1 (by decide)),
    charBits_of_nonneg (h 2 (by decide)), charBits_of_nonneg (h 3 (by decide)), h₀,
    pack_digit symbol (i := 0) (by omega) (by decide),
      pack_digit symbol (i := 1) (by omega) (by decide),
    pack_digit symbol (i := 2) (by omega) (by decide), hlast]
  omega

/-! ### Other characters -/

/-- High bits that are set stay set through a pass. -/
theorem le_pack {hash t : ℕ} (x : ℕ) (hlt : hash < 2 ^ 32) (ht : 32 * t ≤ 2 ^ 32)
    (h : 2 ^ 32 - t ≤ hash) : 2 ^ 32 - 32 * t ≤ pack hash x := by
  refine le_trans ?_ Nat.left_le_or
  rw [Nat.shiftLeft_eq]
  omega

theorem pack_lt (hash : ℕ) {x : ℕ} (hx : x < 2 ^ 32) : pack hash x < 2 ^ 32 :=
  Nat.or_lt_two_pow (Nat.mod_lt _ (by decide)) hx

/-- A character below `@`, or the byte 255, among the first four sets all high bits. -/
theorem le_findHash {symbol : List UInt8} {i : ℕ} (hi : i < 4) (hneg : charVal symbol i < 0) :
    2 ^ 32 - 2 ^ 22 ≤ findHash symbol := by
  have hbits := charBits_of_neg hneg
  have hlt := fun hash i => pack_lt hash (charBits_lt symbol i)
  have hset : ∀ hash, 2 ^ 32 - 65 ≤ pack hash (charBits symbol i) := fun hash =>
    hbits.trans Nat.right_le_or
  rw [findHash_eq]
  have hcases : i = 0 ∨ i = 1 ∨ i = 2 ∨ i = 3 := by omega
  rcases hcases with rfl | rfl | rfl | rfl
  · have h₁ := le_pack (charBits symbol 1) (hlt _ 0) (by decide) (hset 0)
    have h₂ := le_pack (charBits symbol 2) (hlt _ 1) (by decide) h₁
    have h₃ := le_pack (charBits symbol 3) (hlt _ 2) (by decide) h₂
    exact le_trans (by decide) h₃
  · generalize pack 0 (charBits symbol 0) = hash
    have h₂ := le_pack (charBits symbol 2) (hlt hash 1) (by decide) (hset hash)
    have h₃ := le_pack (charBits symbol 3) (hlt _ 2) (by decide) h₂
    exact le_trans (by decide) h₃
  · generalize pack (pack 0 (charBits symbol 0)) (charBits symbol 1) = hash
    have h₃ := le_pack (charBits symbol 3) (hlt hash 2) (by decide) (hset hash)
    exact le_trans (by decide) h₃
  · exact le_trans (by decide) (hset _)

/-! ## The writes of the constructor -/

/-- The first four characters are bytes from `@` to 254, the first is a letter or below the grave
accent, and the digits they make come before 26, 27, 12. -/
def InTable (symbol : List UInt8) : Prop :=
  (∀ i < 4, 0 ≤ charVal symbol i) ∧ charVal symbol 0 < 32 ∧
    (digit symbol 0 < 26 ∨ digit symbol 0 = 26 ∧
      (digit symbol 1 < 27 ∨ digit symbol 1 = 27 ∧ digit symbol 2 < 12))

instance (symbol : List UInt8) : Decidable (InTable symbol) :=
  inferInstanceAs (Decidable (_ ∧ _ ∧ _))

theorem inTable_iff (symbol : List UInt8) : findHash symbol < 880000 ↔ InTable symbol := by
  by_cases hneg : ∀ i < 4, 0 ≤ charVal symbol i
  · have hhash := findHash_of_nonneg hneg
    have hd := fun i => digit_lt symbol i
    have hd₀ := hd 0
    have hd₁ := hd 1
    have hd₂ := hd 2
    have hd₃ := hd 3
    have hfirst := hneg 0 (by decide)
    rw [hhash, InTable]
    have hiff : charVal symbol 0 < 32 ↔ (charVal symbol 0).toNat / 32 = 0 := by omega
    rw [hiff]
    constructor
    · intro hlt
      exact ⟨hneg, by omega, by omega⟩
    · rintro ⟨-, hzero, hdigits⟩
      omega
  · refine iff_of_false ?_ fun h => hneg h.1
    simp only [not_forall, not_le] at hneg
    obtain ⟨i, hi, hlt⟩ := hneg
    have hle := le_findHash hi hlt
    omega

/-- The letters `AÉ` in UTF-8 are an `A` with bits of the next byte set, and in the table. -/
example : findHash [65, 195, 137] = 167200 ∧ InTable [65, 195, 137] := by decide

theorem writeSymbol_ok (table : ℕ → ℤ) {s : SymbolRecord} :
    (∃ table', writeSymbol table s = .ok table') ↔ findHash s.symbol < 880000 := by
  unfold writeSymbol
  split_ifs with h <;> simp [h]

theorem foldlM_writeSymbol_ok : ∀ {symbols : List SymbolRecord} {table : ℕ → ℤ},
    (∃ table', symbols.foldlM writeSymbol table = .ok table') ↔
      ∀ s ∈ symbols, findHash s.symbol < 880000
  | [], table => by simp [pure, Except.pure]
  | s :: symbols, table => by
    simp only [List.foldlM_cons, bind_eq_ok, List.forall_mem_cons]
    rw [← writeSymbol_ok table]
    constructor
    · rintro ⟨table', table₁, hfirst, hrest⟩
      exact ⟨⟨table₁, hfirst⟩, foldlM_writeSymbol_ok.1 ⟨table', hrest⟩⟩
    · rintro ⟨⟨table₁, hfirst⟩, hrest⟩
      obtain ⟨table', hrest⟩ := foldlM_writeSymbol_ok.2 hrest
      exact ⟨table', table₁, hfirst, hrest⟩

/-- With the symbols of any file that is loaded without an exception, the writes of the
constructor are all in the table iff the first four characters of every symbol allow it. -/
theorem table_writes_iff (file : List UInt8) {symbols : List SymbolRecord}
    (_hload : SymbolLoader.loadSymbolCSV file = .ok symbols) :
    (∃ table, fillTable symbols = .ok table) ↔ ∀ s ∈ symbols, InTable s.symbol := by
  simp only [fillTable, foldlM_writeSymbol_ok, inTable_iff]

/-- The symbol `BRK.B` is loaded, and written outside the table. -/
theorem table_write_outside :
    let file : List UInt8 := [104, 10, 66, 82, 75, 46, 66, 44, 49, 44, 49, 44, 49, 44, 49, 10]
    ∃ s, SymbolLoader.loadSymbolCSV file = .ok [s] ∧ ¬ findHash s.symbol < 880000 ∧
      fillTable [s] = .error .badAccess := by
  have hout : ¬ findHash [66, 82, 75, 46, 66] < 880000 := by decide
  refine ⟨⟨[66, 82, 75, 46, 66], 1, 1, 1, 1⟩, by decide +kernel, hout, ?_⟩
  rw [fillTable, List.foldlM_cons, writeSymbol, if_neg hout]
  rfl

/-- The symbols `AAPL` and `AÉ` are loaded. -/
theorem table_writes_aapl :
    let file : List UInt8 := [104, 10, 65, 65, 80, 76, 44, 49, 44, 49, 44, 49, 44, 49, 10,
      65, 195, 137, 44, 50, 44, 49, 44, 49, 44, 49, 10]
    ∃ symbols, SymbolLoader.loadSymbolCSV file = .ok symbols ∧ symbols.length = 2 ∧
      ∃ table, fillTable symbols = .ok table := by
  intro file
  have hload : SymbolLoader.loadSymbolCSV file =
      .ok [⟨[65, 65, 80, 76], 1, 1, 1, 1⟩, ⟨[65, 195, 137], 2, 1, 1, 1⟩] := by
    decide +kernel
  exact ⟨_, hload, rfl, (table_writes_iff file hload).2 (by decide)⟩

/-! ## Looking up a symbol -/

/-- One to four capital letters. -/
def Ticker (symbol : List UInt8) : Prop :=
  symbol ≠ [] ∧ symbol.length ≤ 4 ∧ ∀ c ∈ symbol, 65 ≤ c ∧ c ≤ 90

instance (symbol : List UInt8) : Decidable (Ticker symbol) :=
  inferInstanceAs (Decidable (_ ∧ _ ∧ _))

/-- Four digits of five bits are those of the number they make. -/
theorem digits_unique {d d' : ℕ → ℕ} (hd : ∀ i < 4, d i < 32) (hd' : ∀ i < 4, d' i < 32)
    (h : 2 ^ 15 * d 0 + 2 ^ 10 * d 1 + 2 ^ 5 * d 2 + d 3 =
      2 ^ 15 * d' 0 + 2 ^ 10 * d' 1 + 2 ^ 5 * d' 2 + d' 3) : ∀ i < 4, d i = d' i := by
  have h₁ := hd 1 (by decide)
  have h₂ := hd 2 (by decide)
  have h₃ := hd 3 (by decide)
  have h₁' := hd' 1 (by decide)
  have h₂' := hd' 2 (by decide)
  have h₃' := hd' 3 (by decide)
  intro i hi
  have hcases : i = 0 ∨ i = 1 ∨ i = 2 ∨ i = 3 := by omega
  rcases hcases with rfl | rfl | rfl | rfl <;> omega

/-- Equal up to letter case. -/
def SameLetters (symbol symbol' : List UInt8) : Prop :=
  symbol.map toupper = symbol'.map toupper

instance (symbol symbol' : List UInt8) : Decidable (SameLetters symbol symbol') :=
  inferInstanceAs (Decidable (_ = _))

/-- The first four characters are bytes from `@` to 254, the first is a letter or below the grave
accent, and the digits they make are the letters of `symbol`. -/
def ReadsAs (string symbol : List UInt8) : Prop :=
  (∀ i < 4, 0 ≤ charVal string i) ∧ charVal string 0 < 32 ∧
    ∀ i < 4, (digit string i : ℤ) = charVal symbol i

instance (string symbol : List UInt8) : Decidable (ReadsAs string symbol) :=
  inferInstanceAs (Decidable (_ ∧ _ ∧ _))

/-- The hash depends on the letters only, not on their case. -/
theorem SameLetters.findHash_eq {symbol symbol' : List UInt8} (h : SameLetters symbol symbol') :
    findHash symbol = findHash symbol' := by
  have hbits : ∀ i, charBits symbol i = charBits symbol' i := by
    intro i
    have hi := congrArg (fun l => l[i]?) h
    simp only [List.getElem?_map] at hi
    unfold charBits charVal
    rcases hs : symbol[i]? with _ | c <;> rcases hs' : symbol'[i]? with _ | c'
    · rfl
    · simp [hs, hs'] at hi
    · simp [hs, hs'] at hi
    · rw [hs, hs', Option.map_some, Option.map_some, Option.some_inj] at hi
      simp only [hi]
  simp only [Oms.findHash_eq, hbits]

namespace Ticker

variable {symbol symbol' : List UInt8}

theorem toupper_eq {c : UInt8} (h : 65 ≤ c ∧ c ≤ 90) : toupper c = c.toNat := by
  have hbyte : c ≠ 255 := by
    rintro rfl
    exact absurd h (by decide)
  simp only [UInt8.le_iff_toNat_le, UInt8.reduceToNat] at h
  unfold toupper
  simp only [UInt8.le_iff_toNat_le, UInt8.reduceToNat, if_neg hbyte]
  split_ifs <;> omega

/-- The characters of a ticker are 1 to 26, and 0 behind its end. -/
theorem charVal_cases (h : Ticker symbol) (i : ℕ) :
    (∃ c, symbol[i]? = some c ∧ charVal symbol i = (c.toNat : ℤ) - 64 ∧ 65 ≤ c.toNat ∧
      c.toNat ≤ 90) ∨ symbol[i]? = none ∧ charVal symbol i = 0 := by
  unfold charVal
  cases hs : symbol[i]? with
  | none => exact Or.inr ⟨rfl, rfl⟩
  | some c =>
    obtain ⟨hle, hge⟩ := h.2.2 c (List.mem_of_getElem? hs)
    refine Or.inl ⟨c, rfl, ?_, ?_, ?_⟩
    · simp only [toupper_eq ⟨hle, hge⟩]
      omega
    · simpa [UInt8.le_iff_toNat_le] using hle
    · simpa [UInt8.le_iff_toNat_le] using hge

theorem charVal_bounds (h : Ticker symbol) (i : ℕ) : 0 ≤ charVal symbol i ∧
    charVal symbol i ≤ 26 := by
  rcases h.charVal_cases i with ⟨c, -, hval, hle, hge⟩ | ⟨-, hval⟩ <;> omega

theorem digit_eq (h : Ticker symbol) (i : ℕ) : (digit symbol i : ℤ) = charVal symbol i := by
  have hi := h.charVal_bounds i
  have hnext := h.charVal_bounds (i + 1)
  have hcarry : (if i < 3 then (charVal symbol (i + 1)).toNat / 32 else 0) = 0 := by
    split_ifs <;> omega
  rw [digit, hcarry, Nat.or_zero]
  omega

theorem findHash_lt (h : Ticker symbol) : findHash symbol < 880000 := by
  have hbounds := fun i => h.charVal_bounds i
  have hdigit := fun i => h.digit_eq i
  rw [inTable_iff]
  refine ⟨fun i _ => (hbounds i).1, ?_, ?_⟩
  · have hb₀ := hbounds 0
    omega
  · have hb₀ := hbounds 0
    have hb₁ := hbounds 1
    have hd₀ := hdigit 0
    have hd₁ := hdigit 1
    omega

/-- A string has the hash of a ticker iff it reads as it. -/
theorem readsAs_iff (h : Ticker symbol) (string : List UInt8) :
    ReadsAs string symbol ↔ findHash string = findHash symbol := by
  have hhash := findHash_of_nonneg fun i _ => (h.charVal_bounds i).1
  have hfirst := h.charVal_bounds 0
  have h₀ := h.digit_eq 0
  have h₁ := h.digit_eq 1
  have h₂ := h.digit_eq 2
  have h₃ := h.digit_eq 3
  constructor
  · rintro ⟨hneg, hlow, hdigits⟩
    have hd₀ := hdigits 0 (by decide)
    have hd₁ := hdigits 1 (by decide)
    have hd₂ := hdigits 2 (by decide)
    have hd₃ := hdigits 3 (by decide)
    have hpos := hneg 0 (by decide)
    rw [findHash_of_nonneg hneg, hhash]
    omega
  · intro hsame
    obtain ⟨hneg, hlow, -⟩ : InTable string := by
      rw [← inTable_iff, hsame]
      exact h.findHash_lt
    rw [findHash_of_nonneg hneg, hhash] at hsame
    have hpos := hneg 0 (by decide)
    have hdigits : ∀ i < 4, digit string i = digit symbol i :=
      digits_unique (fun i _ => digit_lt string i) (fun i _ => digit_lt symbol i) (by omega)
    refine ⟨hneg, hlow, fun i hi => ?_⟩
    rw [hdigits i hi, h.digit_eq]

/-- Two tickers with the same hash are the same. -/
theorem eq_of_findHash (h : Ticker symbol) (h' : Ticker symbol')
    (hsame : findHash symbol = findHash symbol') : symbol = symbol' := by
  have hread := (h'.readsAs_iff symbol).2 hsame
  refine List.ext_getElem? fun i => ?_
  rcases Nat.lt_or_ge i 4 with hi | hi
  · have hval : charVal symbol i = charVal symbol' i := by
      rw [← h.digit_eq i]
      exact hread.2.2 i hi
    rcases h.charVal_cases i with ⟨c, hs, hc, hle, -⟩ | ⟨hs, hc⟩ <;>
      rcases h'.charVal_cases i with ⟨c', hs', hc', hle', -⟩ | ⟨hs', hc'⟩
    · rw [hs, hs', Option.some_inj]
      exact UInt8.toNat_inj.1 (by omega)
    · omega
    · omega
    · rw [hs, hs']
  · rw [List.getElem?_eq_none (h.2.1.trans hi), List.getElem?_eq_none (h'.2.1.trans hi)]

end Ticker

theorem intOf_bits (value : UInt32) : (intOf value % 2 ^ 32).toNat = value.toNat := by
  have hlt : value.toNat < 2 ^ 32 := value.toNat_lt
  unfold intOf
  split_ifs <;> omega

theorem intOf_eq_neg_one (value : UInt32) : intOf value = -1 ↔ value.toNat = 2 ^ 32 - 1 := by
  have hlt : value.toNat < 2 ^ 32 := value.toNat_lt
  unfold intOf
  by_cases hsmall : value.toNat < 2 ^ 31
  · rw [if_pos hsmall]
    omega
  · rw [if_neg hsmall]
    omega

/-- The loop over symbols of different hashes puts each id at its hash and leaves the rest. -/
theorem foldlM_writeSymbol_eq : ∀ {symbols : List SymbolRecord} {table table' : ℕ → ℤ},
    (symbols.map fun s => findHash s.symbol).Nodup →
    symbols.foldlM writeSymbol table = .ok table' →
    (∀ s ∈ symbols, table' (findHash s.symbol) = intOf s.symbolId) ∧
      ∀ hash, (∀ s ∈ symbols, findHash s.symbol ≠ hash) → table' hash = table hash
  | [], table, table', _, h => by
    obtain rfl := Except.ok.inj h
    exact ⟨fun _ hs => absurd hs List.not_mem_nil, fun _ _ => rfl⟩
  | s :: symbols, table, table', hnd, h => by
    rw [List.map_cons, List.nodup_cons] at hnd
    obtain ⟨table₁, hfirst, hrest⟩ := bind_eq_ok.1 h
    obtain ⟨hlisted, hother⟩ := foldlM_writeSymbol_eq hnd.2 hrest
    have htable₁ : table₁ = Function.update table (findHash s.symbol) (intOf s.symbolId) := by
      unfold writeSymbol at hfirst
      split_ifs at hfirst
      exact (Except.ok.inj hfirst).symm
    have hself : table' (findHash s.symbol) = intOf s.symbolId := by
      rw [hother _ fun t ht heq => hnd.1 (List.mem_map.2 ⟨t, ht, heq⟩), htable₁,
        Function.update_self]
    refine ⟨List.forall_mem_cons.2 ⟨hself, hlisted⟩, fun hash hne => ?_⟩
    obtain ⟨hs, hsymbols⟩ := List.forall_mem_cons.1 hne
    rw [hother hash hsymbols, htable₁, Function.update_of_ne hs.symm]

/-- The table of distinct tickers. -/
theorem fillTable_spec (symbols : List SymbolRecord) (hticker : ∀ s ∈ symbols, Ticker s.symbol)
    (hdistinct : (symbols.map SymbolRecord.symbol).Nodup) :
    ∃ table, fillTable symbols = .ok table ∧
      (∀ s ∈ symbols, table (findHash s.symbol) = intOf s.symbolId) ∧
      ∀ hash, (∀ s ∈ symbols, findHash s.symbol ≠ hash) → table hash = -1 := by
  have hrange : ∀ s ∈ symbols, findHash s.symbol < 880000 :=
    fun s hs => (hticker s hs).findHash_lt
  obtain ⟨table, htable⟩ := foldlM_writeSymbol_ok.2 hrange
  have hnd : (symbols.map fun s => findHash s.symbol).Nodup := by
    have hmap : (symbols.map fun s => findHash s.symbol) =
        (symbols.map SymbolRecord.symbol).map findHash := by
      rw [List.map_map]
      rfl
    rw [hmap]
    refine (List.nodup_map_iff_inj_on hdistinct).2 fun w hw w' hw' heq => ?_
    obtain ⟨s, hs, rfl⟩ := List.mem_map.1 hw
    obtain ⟨s', hs', rfl⟩ := List.mem_map.1 hw'
    exact (hticker s hs).eq_of_findHash (hticker s' hs') heq
  exact ⟨table, htable, foldlM_writeSymbol_eq hnd htable⟩

/-- With a list of distinct symbols of one to four capitals, a listed symbol is found in any letter
case. A string that is not listed is not found iff it does not read as a listed symbol (other
than one with the id that stands for none), and an order for a string that is not found is
dropped. -/
theorem lookup_exact_iff (symbols : List SymbolRecord)
    (hticker : ∀ s ∈ symbols, Ticker s.symbol)
    (hdistinct : (symbols.map SymbolRecord.symbol).Nodup) :
    ∃ table, fillTable symbols = .ok table ∧ ∀ bootTimestamp clock uninit,
      (∀ s ∈ symbols, ∀ string, SameLetters string s.symbol →
        (init table bootTimestamp clock uninit).findId string = intOf s.symbolId ∧
        (init table bootTimestamp clock uninit).findSymbolId string = s.symbolId.toNat) ∧
      ∀ string, (∀ s ∈ symbols, ¬ SameLetters string s.symbol) →
        ((init table bootTimestamp clock uninit).findId string = -1 ↔
          ∀ s ∈ symbols, ReadsAs string s.symbol → s.symbolId.toNat = 2 ^ 32 - 1) ∧
        ((init table bootTimestamp clock uninit).findId string = -1 →
          ∀ std newOrder, newOrder.symbol = string →
            (init table bootTimestamp clock uninit).receive std newOrder =
              init table bootTimestamp clock uninit) := by
  obtain ⟨table, htable, hlisted, hother⟩ := fillTable_spec _ hticker hdistinct
  refine ⟨table, htable, fun bootTimestamp clock uninit => ⟨fun s hs string hsame => ?_,
    fun string _ => ⟨?_, fun hnone std newOrder hsymbol => ?_⟩⟩⟩
  · have hid : (init table bootTimestamp clock uninit).findId string = intOf s.symbolId := by
      rw [findId, hsame.findHash_eq, if_neg (Nat.not_le.2 (hticker s hs).findHash_lt)]
      exact hlisted s hs
    exact ⟨hid, by rw [findSymbolId, hid, intOf_bits]⟩
  · by_cases hfound : ∃ s ∈ symbols, findHash s.symbol = findHash string
    · obtain ⟨s, hs, hhash⟩ := hfound
      have hid : (init table bootTimestamp clock uninit).findId string = intOf s.symbolId := by
        rw [findId, ← hhash, if_neg (Nat.not_le.2 (hticker s hs).findHash_lt)]
        exact hlisted s hs
      rw [hid, intOf_eq_neg_one]
      constructor
      · intro hnone s' hs' hreads
        have hhash' := ((hticker s' hs').readsAs_iff string).1 hreads
        rw [← intOf_eq_neg_one] at hnone ⊢
        rw [← hlisted s' hs', ← hhash', ← hhash, hlisted s hs, hnone]
      · intro h
        exact h s hs (((hticker s hs).readsAs_iff string).2 hhash.symm)
    · simp only [not_exists, not_and] at hfound
      refine iff_of_true ?_ fun s hs hreads => ?_
      · rw [findId]
        split_ifs
        · rfl
        · exact hother _ hfound
      · exact absurd (((hticker s hs).readsAs_iff string).1 hreads).symm (hfound s hs)
  · have hdrop : ((init table bootTimestamp clock uninit).withSymbolId newOrder).symbolId =
        2 ^ 32 - 1 := by
      rw [withSymbolId, findSymbolId, hsymbol, hnone]
      rfl
    rw [receive, if_neg (not_not.2 hdrop)]

/-- Apple is listed, and an order for a symbol that only begins with its letters finds it. -/
theorem lookup_longer_name :
    let aapl : SymbolRecord := ⟨[65, 65, 80, 76], 1, 100, 90, 110⟩
    ∃ table, fillTable [aapl] = .ok table ∧ Ticker aapl.symbol ∧
      ¬ SameLetters [65, 65, 80, 76, 88] aapl.symbol ∧
      (init table 0 id id).findId [65, 65, 80, 76, 88] = 1 := by
  intro aapl
  have hticker : Ticker aapl.symbol := by decide +kernel
  obtain ⟨table, htable, hlisted, -⟩ := fillTable_spec [aapl]
    (List.forall_mem_singleton.2 hticker) (List.nodup_singleton _)
  refine ⟨table, htable, hticker, by decide, ?_⟩
  have hhash : findHash [65, 65, 80, 76, 88] = findHash aapl.symbol := by decide
  rw [findId, hhash, if_neg (by decide)]
  exact hlisted aapl (List.mem_singleton_self _)

/-- It is found in lower case, and a shorter name is not. -/
theorem lookup_aapl :
    let aapl : SymbolRecord := ⟨[65, 65, 80, 76], 1, 100, 90, 110⟩
    ∃ table, fillTable [aapl] = .ok table ∧
      (init table 0 id id).findId [97, 97, 112, 108] = 1 ∧
      (init table 0 id id).findId [65, 65, 80] = -1 := by
  intro aapl
  obtain ⟨table, htable, h⟩ := lookup_exact_iff [aapl] (by decide +kernel) (by decide)
  obtain ⟨hlisted, hother⟩ := h 0 id id
  refine ⟨table, htable, (hlisted aapl (List.mem_singleton_self _) _ (by decide)).1, ?_⟩
  exact (hother [65, 65, 80] (by decide)).1.2 (by decide)

end TradeX.Oms
