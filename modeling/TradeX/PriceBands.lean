import TradeX.SymbolFile
import TradeX.EngineRuns
import TradeX.Library.Runs

/-!
# The bands of the next days

In a session the symbol file is loaded, books are made for the bands in it, and at the end it is
saved with new bands around the closing prices (`Session`). A band around a closing price `p` is
`[p * 90 / 100, p * 110 / 100]` in 64 bits : for `p = 1` it begins at zero, where the sentinel of
the buy side cannot be below it, and from `2 ^ 64 / 110` on its upper limit is lost by overflow and
is below `p`. Between these the band is usable (`usable_nextDay_iff`), so the files of a run of
sessions are all usable iff every session closes every symbol between these
(`sessions_usable_iff`).
-/

namespace TradeX

/-! ## Bands -/

/-- A row with a band that its price is in, and that leaves room for the sentinels. -/
structure SymbolRecord.Usable (s : SymbolRecord) : Prop where
  lower_pos : 1 ≤ s.lowerLimit.toNat
  lower_le : s.lowerLimit ≤ s.ltp
  le_upper : s.ltp ≤ s.upperLimit
  upper_lt : s.upperLimit.toNat < 2 ^ 64 - 1

/-- A book whose band has as many levels as prices, at least one, and whose sentinels are no prices
of it. -/
structure OrderBook.Banded (b : OrderBook) : Prop where
  nonempty : b.lowerLimit ≤ b.upperLimit
  levels : b.numPriceLevels = b.upperLimit - b.lowerLimit + 1
  sentinel : ∀ s, ¬b.isPriceValid (b.side s).defaultBestPrice

/-- The book made for a row. -/
def SymbolRecord.book (mem : Storage) (poolSize : ℕ) (s : SymbolRecord) : OrderBook :=
  .new mem poolSize s.lowerLimit.toNat s.upperLimit.toNat

theorem SymbolRecord.Usable.banded {s : SymbolRecord} (h : s.Usable) (mem : Storage)
    (poolSize : ℕ) : (s.book mem poolSize).Banded := by
  have hpos := h.lower_pos
  have hlower := UInt64.le_iff_toNat_le.1 h.lower_le
  have hupper := UInt64.le_iff_toNat_le.1 h.le_upper
  have hlt := h.upper_lt
  refine ⟨by simp only [book, OrderBook.new]; omega, ?_, fun t => ?_⟩
  · exact numPriceLevels_new mem poolSize (by omega) (by omega)
  · cases t <;> simp only [book, OrderBook.new, OrderBook.isPriceValid, OrderBook.defaultBest] <;>
      split_ifs <;> omega

/-- A price is at most its upper limit only if that does not overflow. With a carry `q` it would
be that `10 * p` is `q * 2 ^ 64` or more, and the carry of `110 * p` greater. -/
theorem lt_of_le_upper {p : ℕ} (h : p ≤ p * 110 % 2 ^ 64 / 100) : p * 110 < 2 ^ 64 := by
  have hdiv := Nat.div_add_mod (p * 110) (2 ^ 64)
  have hmod := Nat.mod_lt (p * 110) (Nat.two_pow_pos 64)
  rw [Nat.le_div_iff_mul_le (by decide)] at h
  generalize p * 110 / 2 ^ 64 = q at hdiv
  generalize p * 110 % 2 ^ 64 = r at hdiv hmod h
  omega

/-- The limits of the next day, if the upper one does not overflow. -/
theorem SymbolRecord.nextDay_toNat {lastPrice : ℕ → UInt64} {s : SymbolRecord}
    (h : (s.closing lastPrice).toNat * 110 < 2 ^ 64) :
    (s.nextDay lastPrice).lowerLimit.toNat = (s.closing lastPrice).toNat * 90 / 100 ∧
      (s.nextDay lastPrice).upperLimit.toNat = (s.closing lastPrice).toNat * 110 / 100 := by
  have hlower : (s.closing lastPrice).toNat * 90 < 2 ^ 64 := by omega
  have hlower' := Nat.mod_eq_of_lt hlower
  have hupper' := Nat.mod_eq_of_lt h
  simp only [nextDay, UInt64.toNat_div, UInt64.toNat_mul]
  exact ⟨congrArg (· / 100) hlower', congrArg (· / 100) hupper'⟩

/-- The band of the next day is usable iff it is around a price of two or more whose upper limit
does not overflow. -/
theorem SymbolRecord.usable_nextDay_iff (lastPrice : ℕ → UInt64) (s : SymbolRecord) :
    (s.nextDay lastPrice).Usable ↔
      2 ≤ (s.closing lastPrice).toNat ∧ (s.closing lastPrice).toNat * 110 < 2 ^ 64 := by
  constructor
  · intro h
    have hcarry : (s.closing lastPrice).toNat * 110 < 2 ^ 64 := by
      refine lt_of_le_upper ((UInt64.le_iff_toNat_le.1 h.le_upper).trans_eq ?_)
      simp only [nextDay, UInt64.toNat_div, UInt64.toNat_mul]
      rfl
    have hpos := h.lower_pos
    rw [(nextDay_toNat hcarry).1] at hpos
    exact ⟨by omega, hcarry⟩
  · rintro ⟨htwo, hcarry⟩
    obtain ⟨hlower, hupper⟩ := nextDay_toNat hcarry
    have hltp : (s.nextDay lastPrice).ltp = s.closing lastPrice := rfl
    refine ⟨?_, UInt64.le_iff_toNat_le.2 ?_, UInt64.le_iff_toNat_le.2 ?_, ?_⟩
    · rw [hlower]
      omega
    · rw [hlower, hltp]
      omega
    · rw [hupper, hltp]
      omega
    · rw [hupper]
      omega

/-! ## Sessions -/

namespace SymbolLoader

variable {file file' : List UInt8} {lastPrice : ℕ → UInt64} {symbols : List SymbolRecord}

/-- A session that ends with the prices `lastPrice` : the file is loaded, and saved at the end. -/
def Session (file : List UInt8) (lastPrice : ℕ → UInt64) (file' : List UInt8) : Prop :=
  ∃ symbols, loadSymbolCSV file = .ok symbols ∧ saveEndOfDayCSV lastPrice symbols = .ok file'

/-- The file can be loaded, and its rows are usable. -/
def Usable (file : List UInt8) : Prop :=
  ∃ symbols, loadSymbolCSV file = .ok symbols ∧ ∀ s ∈ symbols, s.Usable

/-- The books made for the rows have bands, and their sentinels are outside of them. -/
def BooksBanded (file : List UInt8) : Prop :=
  ∀ symbols, loadSymbolCSV file = .ok symbols →
    ∀ s ∈ symbols, ∀ mem poolSize, (s.book mem poolSize).Banded

/-- Every symbol has been traded in its band, or not at all. -/
def TradedInBand (file : List UInt8) (lastPrice : ℕ → UInt64) : Prop :=
  ∀ symbols, loadSymbolCSV file = .ok symbols → ∀ s ∈ symbols,
    lastPrice s.symbolId.toNat = 0 ∨
      s.lowerLimit ≤ lastPrice s.symbolId.toNat ∧ lastPrice s.symbolId.toNat ≤ s.upperLimit

/-- Every symbol closes at two or more, and below `2 ^ 64 / 110`. If an id is outside `last_price`
the session writes no file, and nothing is asked of it. -/
def ClosesInRange (file : List UInt8) (lastPrice : ℕ → UInt64) : Prop :=
  ∀ symbols, loadSymbolCSV file = .ok symbols →
    (∀ s ∈ symbols, s.symbolId.toNat < maxSymbols) →
    ∀ s ∈ symbols, 2 ≤ (s.closing lastPrice).toNat ∧
      (s.closing lastPrice).toNat * 110 < 2 ^ 64

theorem Usable.booksBanded (h : Usable file) : BooksBanded file := by
  intro symbols hload s hs mem poolSize
  obtain ⟨symbols', hload', husable⟩ := h
  obtain rfl := Except.ok.inj (hload.symm.trans hload')
  exact (husable s hs).banded mem poolSize

/-- A session writes its file if every id is inside `last_price`. -/
theorem session_iff (hload : loadSymbolCSV file = .ok symbols) : Session file lastPrice file' ↔
    (∀ s ∈ symbols, s.symbolId.toNat < maxSymbols) ∧ file' = fileOf lastPrice symbols := by
  constructor
  · rintro ⟨symbols', hload', hsave⟩
    obtain rfl := Except.ok.inj (hload.symm.trans hload')
    exact saveEndOfDayCSV_eq_ok.1 hsave
  · intro h
    exact ⟨symbols, hload, saveEndOfDayCSV_eq_ok.2 h⟩

/-- What a session makes of the rows. -/
theorem Session.load (h : Session file lastPrice file') (hload : loadSymbolCSV file = .ok symbols) :
    loadSymbolCSV file' = .ok (symbols.map (SymbolRecord.nextDay lastPrice)) := by
  obtain ⟨-, rfl⟩ := (session_iff hload).1 h
  exact loadSymbolCSV_fileOf lastPrice (symbol_of_load hload)

/-- The file that a session writes is usable iff every symbol has closed in range. -/
theorem Session.usable_iff (h : Session file lastPrice file') :
    Usable file' ↔ ClosesInRange file lastPrice := by
  obtain ⟨symbols, hload, -⟩ := id h
  have hid := ((session_iff hload).1 h).1
  have hnext := h.load hload
  constructor
  · rintro ⟨symbols', hload', husable⟩ symbols'' hload'' - s hs
    obtain rfl := Except.ok.inj (hnext.symm.trans hload')
    obtain rfl := Except.ok.inj (hload.symm.trans hload'')
    exact (s.usable_nextDay_iff lastPrice).1 (husable _ (List.mem_map_of_mem hs))
  · intro hcloses
    refine ⟨_, hnext, fun s' hs' => ?_⟩
    obtain ⟨s, hs, rfl⟩ := List.mem_map.1 hs'
    exact (s.usable_nextDay_iff lastPrice).2 (hcloses symbols hload hid s hs)

/-- A session that writes no file has read outside `last_price`. -/
theorem closesInRange_or_session (hload : loadSymbolCSV file = .ok symbols)
    (lastPrice : ℕ → UInt64) :
    ClosesInRange file lastPrice ∨ ∃ file', Session file lastPrice file' := by
  by_cases hid : ∀ s ∈ symbols, s.symbolId.toNat < maxSymbols
  · exact Or.inr ⟨_, (session_iff hload).2 ⟨hid, rfl⟩⟩
  · refine Or.inl fun symbols' hload' hid' => absurd ?_ hid
    obtain rfl := Except.ok.inj (hload.symm.trans hload')
    exact hid'

/-- From a usable file, every file of a run of sessions is usable, and makes books with bands, iff
every session closes every symbol in range. -/
theorem sessions_usable_iff {sessions : List (ℕ → UInt64)} (hstart : Usable file) :
    (∀ pre post file', sessions = pre ++ post → Runs.Steps Session pre file file' →
      Usable file' ∧ BooksBanded file') ↔ Runs.Always Session ClosesInRange file sessions := by
  have hload : ∃ symbols, loadSymbolCSV file = .ok symbols := hstart.imp fun _ h => h.1
  -- every file that a session writes can be loaded again
  have hiff := Runs.always_iff (R := Session) (P := ClosesInRange) (G := Usable)
    (I := fun file => ∃ symbols, loadSymbolCSV file = .ok symbols) (L := fun _ _ => True)
    (fun h _ hs => h.elim fun _ hload => ⟨_, hs.load hload⟩)
    (fun _ _ hs _ => hs.usable_iff)
    (fun h _ => h.elim fun _ hload => closesInRange_or_session hload _)
    hload hstart (l := sessions) (.of_forall_mem fun _ _ _ => trivial)
  rw [← hiff]
  constructor
  · exact fun h pre post file' heq hsteps => (h pre post file' heq hsteps).1
  · intro h pre post file' heq hsteps
    have husable := h pre post file' heq hsteps
    exact ⟨husable, husable.booksBanded⟩

/-- The file with the one symbol `A` at `ltp`, and the band around that. -/
def oneSymbol (ltp : UInt64) : List UInt8 :=
  fileOf (fun _ => 0) [⟨[65], 0, ltp, 0, 0⟩]

theorem load_oneSymbol (ltp : UInt64) :
    loadSymbolCSV (oneSymbol ltp) = .ok [⟨[65], 0, ltp, ltp * 90 / 100, ltp * 110 / 100⟩] :=
  loadSymbolCSV_fileOf (fun _ => 0) (by simp)

/-- Where a session leads. -/
theorem session_oneSymbol {ltp price : UInt64} {file' : List UInt8} :
    Session (oneSymbol ltp) (fun _ => price) file' ↔
      file' = oneSymbol (if price = 0 then ltp else price) := by
  rw [session_iff (load_oneSymbol ltp)]
  exact and_iff_right (by simp [maxSymbols, symbolBits])

theorem closesInRange_oneSymbol {ltp price : UInt64}
    (h : 2 ≤ (if price = 0 then ltp else price).toNat ∧
      (if price = 0 then ltp else price).toNat * 110 < 2 ^ 64) :
    ClosesInRange (oneSymbol ltp) (fun _ => price) := by
  intro symbols hload _ s hs
  obtain rfl := Except.ok.inj ((load_oneSymbol ltp).symm.trans hload)
  obtain rfl := List.mem_singleton.1 hs
  exact h

/-- A session with no trade, and two in which the price falls. -/
def fallingPrices : List (ℕ → UInt64) :=
  [fun _ => 0, fun _ => 91, fun _ => 85]

theorem sessions_usable_fallingPrices :
    ∃ file', Runs.Steps Session fallingPrices (oneSymbol 100) file' ∧
      Usable file' ∧ BooksBanded file' := by
  have hstart : Usable (oneSymbol 100) := by
    refine ⟨_, load_oneSymbol 100, fun s hs => ?_⟩
    obtain rfl := List.mem_singleton.1 hs
    exact ⟨by decide, by decide, by decide, by decide⟩
  have halways : Runs.Always Session ClosesInRange (oneSymbol 100) fallingPrices := by
    refine .cons (closesInRange_oneSymbol (by decide)) fun file₁ h₁ => ?_
    obtain rfl := session_oneSymbol.1 h₁
    refine .cons (closesInRange_oneSymbol (by decide)) fun file₂ h₂ => ?_
    obtain rfl := session_oneSymbol.1 h₂
    exact .cons (closesInRange_oneSymbol (by decide)) fun _ _ => .nil _
  have hsteps : Runs.Steps Session fallingPrices (oneSymbol 100) (oneSymbol 85) :=
    ⟨_, session_oneSymbol.2 rfl, _, session_oneSymbol.2 rfl, _, session_oneSymbol.2 rfl, rfl⟩
  exact ⟨_, hsteps, (sessions_usable_iff hstart).2 halways _ [] _ (List.append_nil _).symm
    hsteps⟩

/-- From a band of the prices 1 and 2 a trade at 1 leads to a band that begins at zero, where the
sentinel of the buy side is a price of the band. -/
theorem band_at_zero :
    Usable (oneSymbol 2) ∧ TradedInBand (oneSymbol 2) (fun _ => 1) ∧
    ∃ file', Session (oneSymbol 2) (fun _ => 1) file' ∧ ¬Usable file' ∧
      ¬BooksBanded file' := by
  have hload := load_oneSymbol 1
  refine ⟨⟨_, load_oneSymbol 2, fun s hs => ?_⟩, fun symbols hsymbols s hs => ?_, oneSymbol 1,
    session_oneSymbol.2 rfl, ?_, fun h => ?_⟩
  · obtain rfl := List.mem_singleton.1 hs
    exact ⟨by decide, by decide, by decide, by decide⟩
  · obtain rfl := Except.ok.inj ((load_oneSymbol 2).symm.trans hsymbols)
    obtain rfl := List.mem_singleton.1 hs
    decide
  · rintro ⟨symbols, hsymbols, husable⟩
    obtain rfl := Except.ok.inj (hload.symm.trans hsymbols)
    exact absurd (husable _ List.mem_cons_self).lower_pos (by decide)
  · have hbanded := h _ hload _ List.mem_cons_self ⟨zeroNodes, fun _ => 0⟩ 4
    exact absurd (hbanded.sentinel .buy) (by decide)

end SymbolLoader

end TradeX
