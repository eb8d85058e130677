import TradeX.BotOrders

/-!
# The sessions of the bots

`run_bot` of `bots/run.cpp` : in each pass an order is built, spoilt or not, checked, and sent if
it is valid. `send` may take the bytes in pieces and may fail in the middle of an order; the bot
then goes on with a new connection, or with none if it cannot be made, and the order is not sent
again.

So on each connection there are whole orders, and at most the beginning of one at its end
(`Streamed`). What the server pops are valid orders, each at most once and those of a connection
in the order they were sent, however the bytes are split and the threads interleaved
(`popped_from_bots`).
-/

namespace TradeX

namespace Bots

variable (symbols : List SymbolRecord)

/-- What a pass meets : the symbol, what is drawn, the padding of the order in memory, the results
of the calls of `send`, and whether a new connection can be made. -/
structure Pass where
  index : Fin symbols.length
  draws : Draws (symbols.get index)
  corruption : Corruption
  pad : Padding
  sends : List ℤ
  reconnects : Bool

/-- The loop of `run_bot`, with its connection, the bytes that have been given to each connection,
and the orders for which `send_order` has returned true. -/
structure Bot where
  sockfd : Option ℕ
  connections : ℕ
  streams : ℕ → List UInt8
  validCount : ℕ
  invalidCount : ℕ
  sentCount : ℕ
  sendFailCount : ℕ
  sent : List (ℕ × ClientOrderWire × Padding)

/-- The first connection has been made. -/
def Bot.start : Bot :=
  ⟨some 0, 1, fun _ => [], 0, 0, 0, 0, []⟩

/-- `send_order` with `sent` bytes of `size` taken : the bytes taken in the end, and what it
returns. A call of `send` takes no more than it is given, and nothing without a connection. -/
def sendOrder (size : ℕ) (connected : Bool) (sent : ℕ) : List ℤ → Option (ℕ × Bool)
  | [] => if sent < size then none else some (sent, true)
  | n :: results =>
    if sent < size then
      if n ≤ 0 then some (sent, false)
      else if connected = true ∧ n ≤ size - sent then
        sendOrder size connected (sent + n.toNat) results
      else none
    else some (sent, true)

/-- `connect_with_retry`, after the socket has been closed. -/
def Bot.connectWithRetry (bot : Bot) (success : Bool) : Bot :=
  if success then { bot with sockfd := some bot.connections, connections := bot.connections + 1 }
  else { bot with sockfd := none }

/-- Bytes are given to the connection, if there is one. -/
def Bot.write (bot : Bot) (bytes : List UInt8) : Bot :=
  match bot.sockfd with
  | none => bot
  | some c => { bot with streams := Function.update bot.streams c (bot.streams c ++ bytes) }

variable {symbols}

/-- The order of a pass. -/
def Pass.order (p : Pass symbols) (traderId : UInt64) (invalidPercent : ℤ) : ClientOrderWire :=
  maybeCorruptOrderForNegativeTest (buildRandomOrder (symbols.get p.index) traderId p.draws)
    (symbols.get p.index) p.corruption invalidPercent

/-- A pass of the loop of `run_bot`, if `send_order` returns. -/
def Bot.pass (traderId : UInt64) (invalidPercent : ℤ) (bot : Bot) (p : Pass symbols) :
    Option Bot :=
  let ord := p.order traderId invalidPercent
  if (validateOrder ord (symbols.get p.index)).valid = false then
    some { bot with invalidCount := bot.invalidCount + 1 }
  else
    let bytes := ord.toBytes p.pad
    match sendOrder bytes.length bot.sockfd.isSome 0 p.sends with
    | none => none
    | some (n, true) => some { bot.write (bytes.take n) with
        validCount := bot.validCount + 1
        sentCount := bot.sentCount + 1
        sent := bot.sent ++ (bot.sockfd.map fun c => (c, ord, p.pad)).toList }
    | some (n, false) => some { (bot.write (bytes.take n)).connectWithRetry p.reconnects with
        validCount := bot.validCount + 1
        sendFailCount := bot.sendFailCount + 1 }

/-- The passes of the loop of `run_bot`. -/
def Bot.run (traderId : UInt64) (invalidPercent : ℤ) (bot : Bot) (passes : List (Pass symbols)) :
    Option Bot :=
  passes.foldlM (Bot.pass traderId invalidPercent) bot

/-! ## One call of `send_order` -/

theorem sendOrder_spec {size : ℕ} {connected : Bool} :
    ∀ {results : List ℤ} {sent n : ℕ} {ok : Bool},
    sent ≤ size → sendOrder size connected sent results = some (n, ok) →
      (ok = true → n = size) ∧ (ok = false → n < size) ∧ (connected = false → n = sent)
  | [], sent, n, ok, hle, h => by
    rw [sendOrder] at h
    split_ifs at h with hlt
    obtain ⟨rfl, rfl⟩ := Prod.mk.inj (Option.some.inj h)
    exact ⟨fun _ => Nat.le_antisymm hle (Nat.le_of_not_lt hlt), nofun, fun _ => rfl⟩
  | m :: results, sent, n, ok, hle, h => by
    rw [sendOrder] at h
    split_ifs at h with hlt hfail htaken
    · obtain ⟨rfl, rfl⟩ := Prod.mk.inj (Option.some.inj h)
      exact ⟨nofun, fun _ => hlt, fun _ => rfl⟩
    · obtain ⟨hok, hnot, -⟩ := sendOrder_spec (by omega) h
      exact ⟨hok, hnot, fun hconnected => absurd (hconnected.symm.trans htaken.1) nofun⟩
    · obtain ⟨rfl, rfl⟩ := Prod.mk.inj (Option.some.inj h)
      exact ⟨fun _ => Nat.le_antisymm hle (Nat.le_of_not_lt hlt), nofun, fun _ => rfl⟩

/-! ## What is on a connection -/

/-- The bytes of the orders that have been sent on a connection. -/
def Bot.framesOn (bot : Bot) (c : ℕ) : List (List UInt8) :=
  (Streams.ofSource bot.sent c).map fun e => e.1.toBytes e.2

/-- The order is valid for one of the symbols. -/
def Valid (symbols : List SymbolRecord) (ord : ClientOrderWire) : Prop :=
  ∃ sym ∈ symbols, ord.symbol = strncpy sym.symbol ∧ ord.symbolId = sym.symbolId ∧
    (validateOrder ord sym).valid = true

/-- On each connection there are whole orders, all of them valid, and less than one at its end. On
the one in use there is nothing at its end. -/
structure Streamed (symbols : List SymbolRecord) (bot : Bot) : Prop where
  whole : ∀ c, ∃ rest, bot.streams c = (bot.framesOn c).flatten ++ rest ∧
    rest.length < sizeofClientOrder
  current : ∀ {c}, bot.sockfd = some c →
    c < bot.connections ∧ bot.streams c = (bot.framesOn c).flatten
  fresh : ∀ c, bot.connections ≤ c → bot.streams c = [] ∧ bot.framesOn c = []
  valid : ∀ e ∈ bot.sent, Valid symbols e.2.1
  counts : bot.validCount = bot.sentCount + bot.sendFailCount ∧ bot.sentCount = bot.sent.length

theorem streamed_start : Streamed symbols Bot.start where
  whole _ := ⟨[], rfl, Nat.zero_lt_succ 71⟩
  current h := by
    obtain rfl := Option.some.inj h
    exact ⟨Nat.zero_lt_one, rfl⟩
  fresh _ _ := ⟨rfl, rfl⟩
  valid := nofun
  counts := ⟨rfl, rfl⟩

variable {bot bot' : Bot} {traderId : UInt64} {invalidPercent : ℤ} {c : ℕ}

/-- An order keeps its symbol when it is spoilt, so one that passes the check is valid. -/
theorem valid_order (p : Pass symbols)
    (h : (validateOrder (p.order traderId invalidPercent) (symbols.get p.index)).valid = true) :
    Valid symbols (p.order traderId invalidPercent) := by
  refine ⟨symbols.get p.index, List.get_mem symbols p.index, ?_, ?_, h⟩
  · unfold Pass.order maybeCorruptOrderForNegativeTest
    split_ifs <;> rfl
  · unfold Pass.order maybeCorruptOrderForNegativeTest
    split_ifs <;> rfl

theorem framesOn_append_self (ord : ClientOrderWire) (pad : Padding)
    (hsent : bot'.sent = bot.sent ++ [(c, ord, pad)]) :
    bot'.framesOn c = bot.framesOn c ++ [ord.toBytes pad] := by
  rw [Bot.framesOn, hsent, Streams.ofSource_append, List.map_append]
  simp [Bot.framesOn, Streams.ofSource]

theorem framesOn_append_of_ne {ord : ClientOrderWire} {pad : Padding}
    (hsent : bot'.sent = bot.sent ++ [(c, ord, pad)]) {c' : ℕ} (hne : c' ≠ c) :
    bot'.framesOn c' = bot.framesOn c' := by
  rw [Bot.framesOn, hsent, Streams.ofSource_append, List.map_append]
  simp [Bot.framesOn, Streams.ofSource, hne.symm]

/-- An order has been sent whole. -/
theorem Streamed.sent (h : Streamed symbols bot) {ord : ClientOrderWire} (pad : Padding)
    (hfd : bot.sockfd = some c) (hvalid : Valid symbols ord) (hsockfd : bot'.sockfd = bot.sockfd)
    (hconnections : bot'.connections = bot.connections)
    (hstreams : bot'.streams =
      Function.update bot.streams c (bot.streams c ++ ord.toBytes pad))
    (hsent : bot'.sent = bot.sent ++ [(c, ord, pad)])
    (hcounts : bot'.validCount = bot.validCount + 1 ∧ bot'.sentCount = bot.sentCount + 1 ∧
      bot'.sendFailCount = bot.sendFailCount) : Streamed symbols bot' := by
  obtain ⟨hlt, hcurrent⟩ := h.current hfd
  have hself : bot'.streams c = (bot'.framesOn c).flatten := by
    rw [hstreams, Function.update_self, framesOn_append_self ord pad hsent, hcurrent,
      List.flatten_append, List.flatten_singleton]
  have hother : ∀ c' ≠ c, bot'.streams c' = bot.streams c' ∧
      bot'.framesOn c' = bot.framesOn c' :=
    fun c' hne => ⟨by rw [hstreams, Function.update_of_ne hne], framesOn_append_of_ne hsent hne⟩
  refine ⟨fun c' => ?_, fun {c'} hc' => ?_, fun c' hc' => ?_, fun e he => ?_, ?_⟩
  · rcases eq_or_ne c' c with rfl | hne
    · exact ⟨[], by rw [hself, List.append_nil], Nat.zero_lt_succ 71⟩
    · rw [(hother c' hne).1, (hother c' hne).2]
      exact h.whole c'
  · rw [hsockfd, hfd] at hc'
    obtain rfl := Option.some.inj hc'
    exact ⟨hconnections ▸ hlt, hself⟩
  · rw [hconnections] at hc'
    have hne : c' ≠ c := Nat.ne_of_gt (Nat.lt_of_lt_of_le hlt hc')
    rw [(hother c' hne).1, (hother c' hne).2]
    exact h.fresh c' hc'
  · rw [hsent] at he
    rcases List.mem_append.1 he with he | he
    · exact h.valid e he
    · obtain rfl := List.mem_singleton.1 he
      exact hvalid
  · obtain ⟨hvalidCount, hsentCount, hfail⟩ := hcounts
    have hold := h.counts
    rw [hvalidCount, hsentCount, hfail, hsent, List.length_append, List.length_singleton]
    omega

theorem write_streams (bytes : List UInt8) (c : ℕ) :
    (bot.write bytes).streams c = bot.streams c ++ if bot.sockfd = some c then bytes else [] := by
  unfold Bot.write
  split
  next hfd => rw [hfd, if_neg nofun, List.append_nil]
  next c' hfd =>
    rcases eq_or_ne c c' with rfl | hne
    · rw [hfd, if_pos rfl]
      exact Function.update_self ..
    · rw [hfd, if_neg fun heq => hne (Option.some.inj heq).symm, List.append_nil]
      exact Function.update_of_ne hne ..

theorem write_same (bot : Bot) (bytes : List UInt8) : (bot.write bytes).sockfd = bot.sockfd ∧
    (bot.write bytes).connections = bot.connections ∧ (bot.write bytes).sent = bot.sent ∧
    (bot.write bytes).sentCount = bot.sentCount ∧
    (bot.write bytes).sendFailCount = bot.sendFailCount := by
  unfold Bot.write
  split <;> exact ⟨rfl, rfl, rfl, rfl, rfl⟩

theorem connectWithRetry_same (bot : Bot) (success : Bool) :
    (bot.connectWithRetry success).streams = bot.streams ∧
    (bot.connectWithRetry success).sent = bot.sent ∧
    (bot.connectWithRetry success).sentCount = bot.sentCount := by
  cases success <;> exact ⟨rfl, rfl, rfl⟩

theorem le_connectWithRetry (success : Bool) :
    bot.connections ≤ (bot.connectWithRetry success).connections := by
  cases success
  · exact Nat.le_refl _
  · exact Nat.le_succ _

/-- A connection that has been made is a new one. -/
theorem connectWithRetry_sockfd {success : Bool}
    (h : (bot.connectWithRetry success).sockfd = some c) :
    c = bot.connections ∧ c < (bot.connectWithRetry success).connections := by
  cases success with
  | false => cases h
  | true =>
    obtain rfl := Option.some.inj h
    exact ⟨rfl, Nat.lt_succ_self _⟩

/-- An order has been cut off, and the bot goes on with a new connection or with none. -/
theorem Streamed.cutOff (h : Streamed symbols bot) {bytes : List UInt8} {success : Bool}
    (hlt : bytes.length < sizeofClientOrder) : Streamed symbols
      { (bot.write bytes).connectWithRetry success with
        validCount := bot.validCount + 1
        sendFailCount := bot.sendFailCount + 1 } := by
  obtain ⟨-, hconnections, hsentW, hcountW, -⟩ := write_same bot bytes
  obtain ⟨hstreamsC, hsentC, hcountC⟩ := connectWithRetry_same (bot.write bytes) success
  have hsent := hsentC.trans hsentW
  have hstreams : ∀ c, ((bot.write bytes).connectWithRetry success).streams c =
      bot.streams c ++ if bot.sockfd = some c then bytes else [] := fun c => by
    rw [hstreamsC, write_streams]
  have hfresh : ∀ c, bot.connections ≤ c →
      ((bot.write bytes).connectWithRetry success).streams c = [] ∧ bot.framesOn c = [] := by
    intro c hc
    have hnot : bot.sockfd ≠ some c := fun hfd => Nat.not_lt.2 hc (h.current hfd).1
    rw [hstreams, if_neg hnot, (h.fresh c hc).1]
    exact ⟨rfl, (h.fresh c hc).2⟩
  refine ⟨fun c => ?_, fun {c} hc => ?_, fun c hc => ?_, fun e he => ?_, ?_⟩
  · simp only [Bot.framesOn, hsent, hstreams]
    split_ifs with hfd
    · exact ⟨bytes, by rw [(h.current hfd).2]; rfl, hlt⟩
    · rw [List.append_nil]
      exact h.whole c
  · obtain ⟨hnew, hmade⟩ := connectWithRetry_sockfd hc
    rw [hconnections] at hnew
    obtain ⟨hempty, hnone⟩ := hfresh c (Nat.le_of_eq hnew.symm)
    simp only [Bot.framesOn, hsent] at hnone ⊢
    exact ⟨hmade, by rw [hempty, hnone]; rfl⟩
  · have hle : bot.connections ≤ c := calc
      bot.connections = (bot.write bytes).connections := hconnections.symm
      _ ≤ ((bot.write bytes).connectWithRetry success).connections := le_connectWithRetry success
      _ ≤ c := hc
    simp only [Bot.framesOn, hsent]
    exact hfresh c hle
  · exact h.valid e (hsent ▸ he)
  · have hold := h.counts
    simp only [hsent, hcountC, hcountW]
    omega

/-- An order that is not valid is counted, and nothing is sent. -/
theorem Streamed.counted (h : Streamed symbols bot) :
    Streamed symbols { bot with invalidCount := bot.invalidCount + 1 } :=
  ⟨h.whole, h.current, h.fresh, h.valid, h.counts⟩

theorem Streamed.pass (h : Streamed symbols bot) {p : Pass symbols}
    (hpass : bot.pass traderId invalidPercent p = some bot') : Streamed symbols bot' := by
  unfold Bot.pass at hpass
  dsimp only at hpass
  split_ifs at hpass with hinvalid
  · obtain rfl := Option.some.inj hpass
    exact h.counted
  · have hvalid := valid_order p (Bool.not_eq_false _ ▸ hinvalid)
    have hlength := length_toBytes (p.order traderId invalidPercent) p.pad
    split at hpass
    next => cases hpass
    next n hsend =>
      obtain rfl := Option.some.inj hpass
      obtain ⟨hall, -, hnone⟩ := sendOrder_spec (Nat.zero_le _) hsend
      -- without a connection nothing can have been sent
      obtain ⟨c, hfd⟩ : ∃ c, bot.sockfd = some c := by
        refine Option.isSome_iff_exists.1 (Bool.eq_true_of_not_eq_false fun hclosed => ?_)
        have hzero := (hall rfl).symm.trans (hnone hclosed)
        rw [hlength] at hzero
        cases hzero
      obtain ⟨hsockfd, hconnections, -, -, hfail⟩ := write_same bot
        ((p.order traderId invalidPercent).toBytes p.pad)
      rw [hall rfl, List.take_length]
      refine h.sent p.pad hfd hvalid hsockfd hconnections ?_ ?_ ⟨rfl, rfl, hfail⟩
      · simp only [Bot.write, hfd]
      · simp only [hfd, Option.map_some, Option.toList_some]
    next n hsend =>
      obtain rfl := Option.some.inj hpass
      obtain ⟨-, hlt, -⟩ := sendOrder_spec (Nat.zero_le _) hsend
      have hcut : (((p.order traderId invalidPercent).toBytes p.pad).take n).length <
          sizeofClientOrder := by
        rw [List.length_take, ← hlength]
        exact Nat.lt_of_le_of_lt (Nat.min_le_left _ _) (hlt rfl)
      exact h.cutOff hcut

theorem Streamed.run (h : Streamed symbols bot) {passes : List (Pass symbols)}
    (hrun : bot.run traderId invalidPercent passes = some bot') : Streamed symbols bot' :=
  Runs.Steps.invariant (P := fun _ _ => True) (fun h _ hstep => h.pass hstep) h
    (.of_forall_mem fun _ _ _ => trivial) (Runs.steps_iff_some.2 hrun)

/-! ## What the server makes of it -/

/-- The orders that have been sent on a connection, as the server has them. -/
def Bot.ordersOn (bot : Bot) (c : ℕ) : List ClientOrder :=
  (Streams.ofSource bot.sent c).map fun e => e.1.toClientOrder

/-- The server cuts the bytes of a connection into the orders that were sent on it. An order that
has been cut off is none. -/
theorem Streamed.orders (h : Streamed symbols bot) (c : ℕ) :
    (Streams.frames sizeofClientOrder (bot.streams c)).map ClientOrder.ofBytes =
    bot.ordersOn c := by
  obtain ⟨rest, hrest, hlt⟩ := h.whole c
  have hframes : ∀ f ∈ bot.framesOn c, f.length = sizeofClientOrder := by
    intro f hf
    obtain ⟨e, -, rfl⟩ := List.mem_map.1 hf
    exact length_toBytes e.1 e.2
  rw [hrest, Streams.frames_flatten_append (by decide) hframes, Streams.frames_of_lt hlt,
    List.append_nil, Bot.framesOn, List.map_map]
  exact List.map_congr_left fun e _ => ofBytes_toBytes e.1 e.2

/-- The bot is one of a run. -/
def Reached (symbols : List SymbolRecord) (invalidPercent : ℤ) (bot : Bot) : Prop :=
  ∃ traderId, ∃ passes : List (Pass symbols),
    Bot.start.run traderId invalidPercent passes = some bot

/-- The connections of the bots, in some order. -/
def connectionsOf (bots : List Bot) : List (List UInt8) :=
  bots.flatMap fun bot => (List.range bot.connections).map bot.streams

/-- The orders that have been sent on each connection. -/
def sentOn (bots : List Bot) : List (List ClientOrder) :=
  bots.flatMap fun bot => (List.range bot.connections).map bot.ordersOn

/-- The order is one that the checks of the bots let through. -/
def Acceptable (symbols : List SymbolRecord) (o : ClientOrder) : Prop :=
  ∃ sym ∈ symbols, o.symbol = strncpy sym.symbol ∧ o.symbolId = sym.symbolId.toNat ∧
    0 < o.quantity ∧
    (o.executionType ≠ .market →
      sym.lowerLimit.toNat ≤ o.price ∧ o.price ≤ sym.upperLimit.toNat) ∧
    (o.executionType = .stopLoss →
      sym.lowerLimit.toNat ≤ o.triggerPrice ∧ o.triggerPrice ≤ sym.upperLimit.toNat) ∧
    (o.executionType = .iceberg → 0 < o.displayQuantity ∧ o.displayQuantity ≤ o.quantity)

theorem Valid.acceptable {ord : ClientOrderWire} (h : Valid symbols ord) :
    Acceptable symbols ord.toClientOrder := by
  obtain ⟨sym, hsym, hname, hid, hvalid⟩ := h
  obtain ⟨hquantity, hprice, htrigger, hdisplay⟩ := validateOrder_valid_iff.1 hvalid
  have hpos : ∀ {x : UInt32}, x ≠ 0 → 0 < x.toNat := fun {x} hx =>
    Nat.pos_of_ne_zero fun hzero => hx (UInt32.toNat_inj.1 hzero)
  refine ⟨sym, hsym, hname, congrArg UInt32.toNat hid, hpos hquantity, fun hexec => ?_,
    fun hexec => ?_, fun hexec => ?_⟩
  · exact inBand_iff.1 (hprice hexec)
  · exact inBand_iff.1 (htrigger hexec)
  · obtain ⟨hzero, hle⟩ := hdisplay hexec
    exact ⟨hpos hzero, UInt32.le_iff_toNat_le.1 hle⟩

variable {bots : List Bot}

theorem ordersOf_connectionsOf (h : ∀ bot ∈ bots, Streamed symbols bot) (i : ℕ) :
    OrderIngest.ordersOf .ofBytes (connectionsOf bots) i = (sentOn bots).getD i [] := by
  have hmap : sentOn bots = (connectionsOf bots).map fun stream =>
      (Streams.frames sizeofClientOrder stream).map ClientOrder.ofBytes := by
    rw [connectionsOf, List.map_flatMap]
    refine List.flatMap_congr fun bot hbot => ?_
    rw [List.map_map]
    exact List.map_congr_left fun c _ => ((h bot hbot).orders c).symm
  rw [hmap]
  exact (List.getD_map (connectionsOf bots) [] fun stream =>
    (Streams.frames sizeofClientOrder stream).map ClientOrder.ofBytes).symm

theorem acceptable_of_mem (h : ∀ bot ∈ bots, Streamed symbols bot) {os : List ClientOrder}
    (hos : os ∈ sentOn bots) : ∀ o ∈ os, Acceptable symbols o := by
  intro o ho
  obtain ⟨bot, hbot, hmem⟩ := List.mem_flatMap.1 hos
  obtain ⟨c, -, rfl⟩ := List.mem_map.1 hmem
  obtain ⟨e, he, rfl⟩ := List.mem_map.1 ho
  exact ((h bot hbot).valid (c, e) (Streams.mem_of_mem_ofSource he)).acceptable

/-- Whatever the bots draw, however `send` and `recv` split the orders, wherever connections are
lost and the threads alternate : the orders that have been popped are the beginning of an
interleaving of those that were sent on the connections, and acceptable. When every connection has
been read to its end, all that were sent have been accepted. -/
theorem popped_from_bots {invalidPercent : ℤ} {capacity : ℕ} {st : OrderIngest}
    (hbots : ∀ bot ∈ bots, Reached symbols invalidPercent bot) (hcap : 1 ≤ capacity)
    (buffer : ℕ → ClientOrder) {actions : List OrderIngest.Action}
    (hrun : (OrderIngest.start buffer (connectionsOf bots)).run .ofBytes capacity actions =
      some st) :
    (∃ l, Streams.IsInterleaving (fun i => (sentOn bots).getD i []) l ∧
      st.queue.popped <+: l) ∧ (∀ o ∈ st.queue.popped, Acceptable symbols o) ∧
      (OrderIngest.Drained st →
        Streams.IsInterleaving (fun i => (sentOn bots).getD i []) st.queue.accepted) := by
  have hstreamed : ∀ bot ∈ bots, Streamed symbols bot := fun bot hbot => by
    obtain ⟨traderId, passes, hpasses⟩ := hbots bot hbot
    exact streamed_start.run hpasses
  have hinv : OrderIngest.Inv .ofBytes capacity (connectionsOf bots) st :=
    (OrderIngest.inv_start hcap buffer).run hcap hrun
  obtain ⟨T, hT, horders⟩ := hinv.accounted.exists_orders
  simp only [ordersOf_connectionsOf hstreamed] at horders
  obtain ⟨rest, hrest, -⟩ := hinv.sound.held
  refine ⟨?_, fun o ho => ?_, fun hdrained => ⟨T, hT.symm, fun i => ?_⟩⟩
  · obtain ⟨l, hl, hpre⟩ := Streams.exists_interleaving (T := T) (N := (sentOn bots).length)
      (fun i => ⟨_, (horders i).symm⟩) fun i hi => List.getD_eq_default _ _ hi
    refine ⟨l, hl, List.IsPrefix.trans ⟨rest, hrest.symm⟩ ?_⟩
    rwa [hT]
  · have haccepted : o ∈ T.map Prod.snd := by
      rw [← hT, hrest]
      exact List.mem_append_left rest ho
    obtain ⟨⟨i, o⟩, he, rfl⟩ := List.mem_map.1 haccepted
    have hof : o ∈ Streams.ofSource T i := List.mem_map.2 ⟨(i, o), by simpa using he, rfl⟩
    have hmem : o ∈ (sentOn bots).getD i [] := by
      rw [horders i]
      exact List.mem_append_left _ hof
    have hlt : i < (sentOn bots).length := by
      refine Nat.lt_of_not_le fun hle => ?_
      rw [List.getD_eq_default _ _ hle] at hmem
      cases hmem
    rw [List.getD_eq_getElem _ _ hlt] at hmem
    exact acceptable_of_mem hstreamed (List.getElem_mem hlt) o hmem
  · beta_reduce
    rw [horders i, hinv.frames_of_drained hdrained i, List.map_nil, List.append_nil]

/-- A bot sends an iceberg order in two pieces, has a limit order spoilt, loses the connection in
the middle of the next order, and sends a market order on a new one. -/
def lostPasses : List (Pass [⟨[65], 1, 100, 90, 110⟩]) :=
  let pad : Padding := ⟨.replicate 4 7, .replicate 3 9⟩
  let draws (roll : Fin 100) : Draws ⟨[65], 1, 100, 90, 110⟩ :=
    ⟨5, 41, 1, 105, roll, by decide, by decide⟩
  let index : Fin 1 := ⟨0, Nat.zero_lt_one⟩
  let limit := draws ⟨10, by decide⟩
  [⟨index, draws ⟨95, by decide⟩, ⟨60, 0⟩, pad, [30, 42], true⟩,
    ⟨index, limit, ⟨10, 1⟩, pad, [], true⟩,
      ⟨index, limit, ⟨60, 1⟩, pad, [12, -1], true⟩,
    ⟨index, draws ⟨70, by decide⟩, ⟨60, 0⟩, pad, [72], true⟩]

/-- The first connection brings an order and 12 bytes of the next and is closed, and the second
brings an order in two pieces. -/
def lostRun : List OrderIngest.Action :=
  [.recv 0 72, .lock 0, .produce, .produce, .produce, .produce, .unlock 0, .recv 0 12, .recv 1 50,
    .callPop, .consume, .consume, .consume, .consume, .close 0, .recv 1 22, .lock 1, .produce,
    .produce, .produce, .produce, .unlock 1, .callPop, .consume, .consume, .consume, .consume]

theorem popped_from_bots_lost : ∃ bot st, Reached [⟨[65], 1, 100, 90, 110⟩] 20 bot ∧
    (OrderIngest.start (fun _ => .zero) (connectionsOf [bot])).run .ofBytes 6 lostRun = some st ∧
    st.queue.popped.map ClientOrder.executionType = [.iceberg, .market] ∧
    (∃ l, Streams.IsInterleaving (fun i => (sentOn [bot]).getD i []) l ∧
      st.queue.popped <+: l) ∧
    (∀ o ∈ st.queue.popped, Acceptable [⟨[65], 1, 100, 90, 110⟩] o) ∧
    (OrderIngest.Drained st →
      Streams.IsInterleaving (fun i => (sentOn [bot]).getD i []) st.queue.accepted) := by
  have hview : ((Bot.start.run 50000 20 lostPasses).bind fun bot =>
      ((OrderIngest.start (fun _ => .zero) (connectionsOf [bot])).run .ofBytes 6 lostRun).map
        fun st => st.queue.popped.map ClientOrder.executionType) = some [.iceberg, .market] := by
    decide +kernel
  obtain ⟨bot, hbot, hview⟩ := Option.bind_eq_some_iff.1 hview
  obtain ⟨st, hrun, hpopped⟩ := Option.map_eq_some_iff.1 hview
  have hreached : Reached [⟨[65], 1, 100, 90, 110⟩] 20 bot := ⟨50000, lostPasses, hbot⟩
  exact ⟨bot, st, hreached, hrun, hpopped, popped_from_bots
    (List.forall_mem_singleton.2 hreached) (by decide) _ hrun⟩

end Bots

end TradeX
