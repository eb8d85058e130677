import TradeX.OrderIngest
import TradeX.SymbolLoader

/-!
# The orders of the bots

The clients of `bots/run.cpp` : an order on the wire (`ClientOrderWire`), which must mirror the
`ClientOrder` of the server, what is drawn for it (`buildRandomOrder`), how it is spoilt for a
negative test (`maybeCorruptOrderForNegativeTest`), and the check that decides whether it is sent
(`validateOrder`).

An order that has gone over the wire is the one that was sent (`ofBytes_toBytes`), every order
that is built is valid (`validateOrder_build`), and a spoilt one is not, but for market orders and
two overflows (`valid_iff`).
-/

namespace TradeX

/-- The values of the enumeration. -/
def OrderType.value : OrderType → ℕ
  | .buy => 0
  | .sell => 1

/-- The values of the enumeration. -/
def ClientOrderType.value : ClientOrderType → ℕ
  | .market => 0
  | .limit => 1
  | .stopLoss => 2
  | .iceberg => 3

namespace Bots

/-- `symbol` holds the characters before the terminating zero. -/
structure ClientOrderWire where
  clientOrderId : UInt64
  price : UInt64
  triggerPrice : UInt64
  symbol : List UInt8
  symbolId : UInt32
  traderId : UInt64
  type : OrderType
  quantity : UInt32
  displayQuantity : UInt32
  filledQuantity : UInt32
  executionType : ClientOrderType
  isActive : Bool
  symbol_length : symbol.length < 8
  symbol_zero : 0 ∉ symbol
  deriving DecidableEq

/-- The bytes of the padding after `symbol_id` and after `is_active`. -/
structure Padding where
  afterSymbolId : Vector UInt8 4
  afterIsActive : Vector UInt8 3

/-- `symbol`, with zeros to its end. -/
def ClientOrderWire.symbolBytes (ord : ClientOrderWire) : List UInt8 :=
  ord.symbol ++ List.replicate (8 - ord.symbol.length) 0

/-- The order in memory, as `send_order` sends it. -/
def ClientOrderWire.toBytes (ord : ClientOrderWire) (pad : Padding) : List UInt8 :=
  Buffer.bytesLE 8 ord.clientOrderId.toNat ++ (Buffer.bytesLE 8 ord.price.toNat ++
    (Buffer.bytesLE 8 ord.triggerPrice.toNat ++
      (ord.symbolBytes ++ (Buffer.bytesLE 4 ord.symbolId.toNat ++ (pad.afterSymbolId.toList ++
        (Buffer.bytesLE 8 ord.traderId.toNat ++ (Buffer.bytesLE 4 ord.type.value ++
          (Buffer.bytesLE 4 ord.quantity.toNat ++ (Buffer.bytesLE 4 ord.displayQuantity.toNat ++
            (Buffer.bytesLE 4 ord.filledQuantity.toNat ++
              (Buffer.bytesLE 4 ord.executionType.value ++
                (Buffer.bytesLE 1 ord.isActive.toNat ++ pad.afterIsActive.toList))))))))))))

/-- The order as the server has it. -/
def ClientOrderWire.toClientOrder (ord : ClientOrderWire) : ClientOrder where
  clientOrderId := ord.clientOrderId.toNat
  price := ord.price.toNat
  triggerPrice := ord.triggerPrice.toNat
  symbol := ord.symbol
  symbolId := ord.symbolId.toNat
  traderId := ord.traderId.toNat
  type := ord.type
  quantity := ord.quantity.toNat
  displayQuantity := ord.displayQuantity.toNat
  filledQuantity := ord.filledQuantity.toNat
  executionType := ord.executionType
  isActive := ord.isActive

/-! ## The wire -/

variable (ord : ClientOrderWire) (pad : Padding)

theorem length_symbolBytes : ord.symbolBytes.length = 8 := by
  have hlt := ord.symbol_length
  rw [ClientOrderWire.symbolBytes, List.length_append, List.length_replicate]
  omega

theorem length_toBytes : (ord.toBytes pad).length = sizeofClientOrder := by
  simp only [ClientOrderWire.toBytes, List.length_append, Buffer.length_bytesLE,
    Vector.length_toList, length_symbolBytes]
  rfl

/-- The characters before the zero are the symbol. -/
theorem takeWhile_symbolBytes (bytes : List UInt8) :
    (ord.symbolBytes ++ bytes).takeWhile (· ≠ 0) = ord.symbol := by
  obtain ⟨n, hn⟩ : ∃ n, 8 - ord.symbol.length = n + 1 :=
    Nat.exists_eq_succ_of_ne_zero (Nat.ne_of_gt (Nat.sub_pos_of_lt ord.symbol_length))
  have hall : ∀ c ∈ ord.symbol, decide (c ≠ 0) = true := fun c hc =>
    decide_eq_true fun hzero => ord.symbol_zero (hzero ▸ hc)
  rw [ClientOrderWire.symbolBytes, hn, List.replicate_succ, List.append_assoc,
    List.takeWhile_append_of_pos hall]
  simp

theorem drop_numbers (a b c : ℕ) (bytes : List UInt8) :
    (Buffer.bytesLE 8 a ++ (Buffer.bytesLE 8 b ++ (Buffer.bytesLE 8 c ++ bytes))).drop 24 =
    bytes := by
  simp [List.drop_append, List.drop_of_length_le]

/-- What the server makes of the bytes is the order. -/
theorem ofBytes_toBytes : ClientOrder.ofBytes (ord.toBytes pad) = ord.toClientOrder := by
  have h64 : ∀ x : UInt64, x.toNat < 256 ^ 8 := fun x => x.toNat_lt
  have h32 : ∀ x : UInt32, x.toNat < 256 ^ 4 := fun x => x.toNat_lt
  have htype : ord.type.value < 256 ^ 4 := by cases ord.type <;> decide
  have hexec : ord.executionType.value < 256 ^ 4 := by cases ord.executionType <;> decide
  have hactive : ord.isActive.toNat < 256 ^ 1 := by cases ord.isActive <;> decide
  have hsymbol := length_symbolBytes ord
  -- the offset of each field is the length of those before it
  unfold ClientOrderWire.toBytes ClientOrder.ofBytes ClientOrderWire.toClientOrder
  simp (disch := simp [hsymbol]) only [Buffer.fieldAt_append, Buffer.length_bytesLE, hsymbol,
    Vector.length_toList, Nat.sub_self, Nat.reduceSub, Buffer.fieldAt_bytesLE_append (h64 _),
    Buffer.fieldAt_bytesLE_append (h32 _), Buffer.fieldAt_bytesLE_append htype,
    Buffer.fieldAt_bytesLE_append hexec, Buffer.fieldAt_bytesLE_append hactive, drop_numbers,
    takeWhile_symbolBytes]
  congr 1
  · cases ord.type <;> rfl
  · cases ord.executionType <;> rfl
  · cases ord.isActive <;> rfl

/-! ## The check -/

/-- `ValidationResult` : whether an order is valid, and why or why not. -/
structure ValidationResult where
  valid : Bool
  reason : String
  deriving DecidableEq

/-- `in_band`. -/
def inBand (sym : SymbolRecord) (px : UInt64) : Bool :=
  sym.lowerLimit ≤ px ∧ px ≤ sym.upperLimit

/-- `validate_order`. -/
def validateOrder (ord : ClientOrderWire) (sym : SymbolRecord) : ValidationResult :=
  if ord.quantity = 0 then ⟨false, "quantity must be > 0"⟩
  else
    match ord.executionType with
    | .market => ⟨true, "valid market order"⟩
    | .limit =>
      if !inBand sym ord.price then ⟨false, "limit price outside symbol limits"⟩
      else ⟨true, "valid limit order"⟩
    | .stopLoss =>
      if !inBand sym ord.triggerPrice then ⟨false, "trigger price outside symbol limits"⟩
      else if !inBand sym ord.price then ⟨false, "stop-loss limit price outside symbol limits"⟩
      else ⟨true, "valid stop-loss order"⟩
    | .iceberg =>
      if !inBand sym ord.price then ⟨false, "iceberg price outside symbol limits"⟩
      else if ord.displayQuantity = 0 ∨ ord.quantity < ord.displayQuantity then
        ⟨false, "display quantity must be in [1, quantity]"⟩
      else ⟨true, "valid iceberg order"⟩

/-! ## The generator -/

/-- What `build_random_order` draws : three numbers of `rng`, a price between the limits by
`price_gen`, and a number below 100 by `type_dist`. -/
structure Draws (sym : SymbolRecord) where
  id : UInt64
  quantity : UInt64
  side : UInt64
  price : UInt64
  roll : Fin 100
  lower_le : sym.lowerLimit ≤ price
  le_upper : price ≤ sym.upperLimit

/-- The characters of `strncpy` : at most seven, up to a zero. -/
def strncpy (name : List UInt8) : List UInt8 :=
  (name.takeWhile (· ≠ 0)).take 7

theorem strncpy_length (name : List UInt8) : (strncpy name).length < 8 :=
  Nat.lt_succ_of_le (List.length_take_le 7 _)

theorem strncpy_zero (name : List UInt8) : 0 ∉ strncpy name := by
  intro hmem
  have hall := List.all_takeWhile (p := fun c : UInt8 => decide (c ≠ 0)) (l := name)
  have hne := List.all_eq_true.1 hall 0 (List.mem_of_mem_take hmem)
  simp at hne

/-- The kind of order, by the number drawn. -/
def executionTypeOf (roll : Fin 100) : ClientOrderType :=
  if roll < 65 then .limit
  else if roll < 80 then .market
  else if roll < 92 then .stopLoss
  else .iceberg

/-- `build_random_order`, with what it draws. -/
def buildRandomOrder (sym : SymbolRecord) (traderId : UInt64) (draws : Draws sym) :
    ClientOrderWire where
  clientOrderId := traderId <<< 32 ||| draws.id &&& 0xFFFFFFFF
  price := if executionTypeOf draws.roll = .market then 0 else draws.price
  triggerPrice := if executionTypeOf draws.roll = .stopLoss then draws.price else 0
  symbol := strncpy sym.symbol
  symbolId := sym.symbolId
  traderId := traderId
  type := if draws.side % 2 = 0 then .buy else .sell
  quantity := (draws.quantity % 200 + 1).toUInt32
  displayQuantity :=
    if executionTypeOf draws.roll = .iceberg then
      max 1 ((draws.quantity % 200 + 1).toUInt32 / 4)
    else 0
  filledQuantity := 0
  executionType := executionTypeOf draws.roll
  isActive := true
  symbol_length := strncpy_length sym.symbol
  symbol_zero := strncpy_zero sym.symbol

/-- What `maybe_corrupt_order_for_negative_test` draws. -/
structure Corruption where
  roll : UInt64
  mode : UInt64

/-- The order is to be spoilt. -/
def Corruption.Happens (c : Corruption) (invalidPercent : ℤ) : Prop :=
  0 < invalidPercent ∧ ((c.roll % 100).toNat : ℤ) < invalidPercent

instance (c : Corruption) (invalidPercent : ℤ) : Decidable (c.Happens invalidPercent) :=
  inferInstanceAs (Decidable (_ ∧ _))

/-- `maybe_corrupt_order_for_negative_test`, with what it draws. -/
def maybeCorruptOrderForNegativeTest (ord : ClientOrderWire) (sym : SymbolRecord) (c : Corruption)
    (invalidPercent : ℤ) : ClientOrderWire :=
  if c.Happens invalidPercent then
    if c.mode % 4 = 0 then { ord with quantity := 0 }
    else if c.mode % 4 = 1 then { ord with price := sym.upperLimit + 500 }
    else if c.mode % 4 = 2 then
      { ord with
        executionType := .iceberg
        price := sym.lowerLimit
        displayQuantity := ord.quantity + 1 }
    else
      { ord with
        executionType := .stopLoss
        triggerPrice := sym.lowerLimit - 1
        price := sym.lowerLimit }
  else ord

/-! ## What is sent -/

variable {sym : SymbolRecord} {ord}

/-- The check in one formula. -/
theorem validateOrder_valid_iff : (validateOrder ord sym).valid = true ↔
    ord.quantity ≠ 0 ∧
      (ord.executionType ≠ .market → inBand sym ord.price = true) ∧
      (ord.executionType = .stopLoss → inBand sym ord.triggerPrice = true) ∧
      (ord.executionType = .iceberg →
        ord.displayQuantity ≠ 0 ∧ ord.displayQuantity ≤ ord.quantity) := by
  unfold validateOrder
  by_cases hq : ord.quantity = 0
  · simp [hq]
  · cases hexec : ord.executionType with
    | market => simp [hq]
    | limit => cases hp : inBand sym ord.price <;> simp [hq]
    | stopLoss =>
      cases hp : inBand sym ord.price <;> cases ht : inBand sym ord.triggerPrice <;> simp [hq]
    | iceberg =>
      by_cases hd : ord.displayQuantity = 0 ∨ ord.quantity < ord.displayQuantity
      · have hnot : ¬(ord.displayQuantity ≠ 0 ∧ ord.displayQuantity ≤ ord.quantity) :=
          fun h => hd.elim h.1 fun hlt => UInt32.not_le.2 hlt h.2
        cases hp : inBand sym ord.price <;> simp [hq, hd, hnot]
      · obtain ⟨hzero, hle⟩ := not_or.1 hd
        cases hp : inBand sym ord.price <;> simp [hq, hle, hzero, UInt32.not_lt.1 hle]

theorem inBand_iff {px : UInt64} : inBand sym px = true ↔
    sym.lowerLimit.toNat ≤ px.toNat ∧ px.toNat ≤ sym.upperLimit.toNat := by
  rw [inBand, decide_eq_true_iff, UInt64.le_iff_toNat_le, UInt64.le_iff_toNat_le]

theorem Draws.lower_le_upper (draws : Draws sym) : sym.lowerLimit.toNat ≤ sym.upperLimit.toNat :=
  UInt64.le_iff_toNat_le.1 (UInt64.le_trans draws.lower_le draws.le_upper)

theorem Draws.inBand_price (draws : Draws sym) : inBand sym draws.price = true :=
  decide_eq_true ⟨draws.lower_le, draws.le_upper⟩

/-- The quantity drawn is between 1 and 200. -/
theorem toNat_quantity (traderId : UInt64) (draws : Draws sym) :
    (buildRandomOrder sym traderId draws).quantity.toNat = draws.quantity.toNat % 200 + 1 := by
  have hlt := Nat.mod_lt draws.quantity.toNat (by decide : 0 < 200)
  simp only [buildRandomOrder, UInt64.toNat_toUInt32, UInt64.toNat_add, UInt64.toNat_mod]
  change (draws.quantity.toNat % 200 + 1) % 2 ^ 64 % 2 ^ 32 = _
  omega

/-- Every order that is built is valid. -/
theorem validateOrder_build (traderId : UInt64) (draws : Draws sym) :
    (validateOrder (buildRandomOrder sym traderId draws) sym).valid = true := by
  have hquantity := toNat_quantity traderId draws
  refine validateOrder_valid_iff.2 ⟨fun hzero => ?_, fun hexec => ?_, fun hexec => ?_,
    fun hexec => ?_⟩
  · rw [hzero] at hquantity
    cases hquantity
  · have hprice : (buildRandomOrder sym traderId draws).price = draws.price := if_neg hexec
    rw [hprice]
    exact draws.inBand_price
  · have htrigger : (buildRandomOrder sym traderId draws).triggerPrice = draws.price :=
      if_pos hexec
    rw [htrigger]
    exact draws.inBand_price
  · have hdisplay : (buildRandomOrder sym traderId draws).displayQuantity =
        if 1 ≤ (buildRandomOrder sym traderId draws).quantity / 4 then
          (buildRandomOrder sym traderId draws).quantity / 4 else 1 := if_pos hexec
    have hdiv : ((buildRandomOrder sym traderId draws).quantity / 4).toNat =
        (buildRandomOrder sym traderId draws).quantity.toNat / 4 := UInt32.toNat_div ..
    have hone : (1 : UInt32).toNat = 1 := rfl
    rw [hdisplay]
    split_ifs with hle
    · rw [UInt32.le_iff_toNat_le] at hle ⊢
      refine ⟨fun hzero => ?_, by omega⟩
      rw [hzero] at hle
      cases hle
    · rw [UInt32.le_iff_toNat_le]
      exact ⟨by decide, by omega⟩

/-- The wrong price is in the band iff it overflows. -/
theorem inBand_wrongPrice : inBand sym (sym.upperLimit + 500) = true ↔
    sym.lowerLimit.toNat + 2 ^ 64 ≤ sym.upperLimit.toNat + 500 := by
  have hsum : (sym.upperLimit + 500).toNat = (sym.upperLimit.toNat + 500) % 2 ^ 64 :=
    UInt64.toNat_add ..
  have hlt := sym.upperLimit.toNat_lt
  rw [inBand_iff, hsum]
  omega

/-- The wrong trigger is in the band iff it is the largest number, and allowed. -/
theorem inBand_wrongTrigger (draws : Draws sym) : inBand sym (sym.lowerLimit - 1) = true ↔
    sym.lowerLimit.toNat = 0 ∧ sym.upperLimit.toNat = 2 ^ 64 - 1 := by
  have hsub : (sym.lowerLimit - 1).toNat = (2 ^ 64 - 1 + sym.lowerLimit.toNat) % 2 ^ 64 :=
    UInt64.toNat_sub ..
  have hlt := sym.upperLimit.toNat_lt
  have hle := draws.lower_le_upper
  rw [inBand_iff, hsub]
  omega

theorem valid_wrongPrice (h : (validateOrder ord sym).valid = true) :
    (validateOrder { ord with price := sym.upperLimit + 500 } sym).valid = true ↔
      ord.executionType = .market ∨ sym.lowerLimit.toNat + 2 ^ 64 ≤ sym.upperLimit.toNat +
        500 := by
  obtain ⟨hquantity, -, hrest⟩ := validateOrder_valid_iff.1 h
  rw [validateOrder_valid_iff, inBand_wrongPrice]
  refine ⟨fun h => ?_, fun h => ⟨hquantity, fun hexec => h.resolve_left hexec, hrest⟩⟩
  exact (em (ord.executionType = .market)).imp_right h.2.1

theorem not_valid_wrongDisplay (hlt : ord.quantity.toNat + 1 < 2 ^ 32) :
    ¬(validateOrder { ord with
      executionType := .iceberg
      price := sym.lowerLimit
      displayQuantity := ord.quantity + 1 } sym).valid = true := by
  intro h
  have hle := UInt32.le_iff_toNat_le.1 ((validateOrder_valid_iff.1 h).2.2.2 rfl).2
  have hsum : (ord.quantity + 1).toNat = (ord.quantity.toNat + 1) % 2 ^ 32 := UInt32.toNat_add ..
  change (ord.quantity + 1).toNat ≤ ord.quantity.toNat at hle
  omega

theorem valid_wrongTrigger (draws : Draws sym) (h : (validateOrder ord sym).valid = true) :
    (validateOrder { ord with
      executionType := .stopLoss
      triggerPrice := sym.lowerLimit - 1
      price := sym.lowerLimit } sym).valid = true ↔
      sym.lowerLimit.toNat = 0 ∧ sym.upperLimit.toNat = 2 ^ 64 - 1 := by
  rw [validateOrder_valid_iff, inBand_wrongTrigger draws]
  refine ⟨fun h => h.2.2.1 rfl, fun hwrong => ?_⟩
  have hprice : inBand sym sym.lowerLimit = true :=
    inBand_iff.2 ⟨Nat.le_refl _, draws.lower_le_upper⟩
  exact ⟨(validateOrder_valid_iff.1 h).1, fun _ => hprice, fun _ => hwrong, nofun⟩

/-- A spoilt order is found out, but for a market order with a wrong price, and for limits at
which the wrong price or trigger overflows into the band. -/
theorem valid_iff (traderId : UInt64) (draws : Draws sym) (c : Corruption) (invalidPercent : ℤ) :
    (validateOrder (maybeCorruptOrderForNegativeTest (buildRandomOrder sym traderId draws) sym c
      invalidPercent) sym).valid = true ↔
    ¬c.Happens invalidPercent ∨
      (c.mode % 4 = 1 ∧ (executionTypeOf draws.roll = .market ∨
        sym.lowerLimit.toNat + 2 ^ 64 ≤ sym.upperLimit.toNat + 500)) ∨
      (c.mode % 4 = 3 ∧ sym.lowerLimit.toNat = 0 ∧ sym.upperLimit.toNat = 2 ^ 64 - 1) := by
  have hbuilt := validateOrder_build traderId draws
  have hmode : c.mode % 4 = 0 ∨ c.mode % 4 = 1 ∨ c.mode % 4 = 2 ∨ c.mode % 4 = 3 := by
    simp only [← UInt64.toNat_inj, UInt64.toNat_mod]
    change c.mode.toNat % 4 = 0 ∨ c.mode.toNat % 4 = 1 ∨ c.mode.toNat % 4 = 2 ∨
      c.mode.toNat % 4 = 3
    omega
  unfold maybeCorruptOrderForNegativeTest
  by_cases hhappens : c.Happens invalidPercent
  · rw [if_pos hhappens]
    rcases hmode with hmode | hmode | hmode | hmode
    · rw [hmode, if_pos rfl]
      refine iff_of_false (fun h => (validateOrder_valid_iff.1 h).1 rfl) ?_
      simp [hhappens]
    · rw [hmode, if_neg (by decide), if_pos rfl, valid_wrongPrice hbuilt]
      simp only [hhappens, not_true_eq_false, false_or, true_and]
      exact (or_iff_left fun h => absurd h.1 (by decide)).symm
    · rw [hmode, if_neg (by decide), if_neg (by decide), if_pos rfl]
      refine iff_of_false (not_valid_wrongDisplay ?_) (by simp [hhappens])
      have hlt := Nat.mod_lt draws.quantity.toNat (by decide : 0 < 200)
      rw [toNat_quantity]
      omega
    · rw [hmode, if_neg (by decide), if_neg (by decide), if_neg (by decide),
        valid_wrongTrigger draws hbuilt]
      simp only [hhappens, not_true_eq_false, false_or, true_and]
      exact (or_iff_right fun h => absurd h.1 (by decide)).symm
  · rw [if_neg hhappens]
    exact iff_of_true hbuilt (Or.inl hhappens)

end Bots

end TradeX
