import XV6AndConcurrency.Devices.Uart

/-!
# Transmission in order

What `uartputc` accepts goes out in the same order, each byte once, whatever the processes,
the interrupt handler and `uartputc_sync` do at the same time; output never gets stuck, and
nobody sleeps for room that is there.
-/

namespace XV6AndConcurrency.Devices

open Foundations Scheduling Synchronization

namespace Uart

variable {d d' : Uart} {c : Byte} {v v' : ℕ → View Code} {e : Event}

/-! ## The operations on the ring and the queue -/

theorem Ring.push (hd : d.Ring) (hfull : d.full = false) :
    (d.push c).Ring ∧ (d.push c).contents = d.contents ++ [c] := by
  have hroom : span 18446744073709551616 d.r d.w < uartTxBufSize := by
    refine lt_of_le_of_ne hd.le fun heq => of_decide_eq_false hfull ?_
    rw [← heq]
    exact (add_span hd.r_lt hd.w_lt).symm
  have hlt : span 18446744073709551616 d.r d.w + 1 < 18446744073709551616 :=
    lt_of_le_of_lt hroom (by decide)
  refine ⟨⟨hd.r_lt, Nat.mod_lt _ (by norm_num), ?_⟩, ?_⟩
  · exact (span_succ hd.r_lt hd.w_lt hlt).trans_le hroom
  · exact window_push (by decide) hd.r_lt hd.w_lt hroom hlt d.buf c

theorem Ring.pop (hd : d.Ring) (hne : d.w ≠ d.r) :
    d.pop.Ring ∧ d.contents = d.buf (d.r % uartTxBufSize) :: d.pop.contents := by
  refine ⟨⟨Nat.mod_lt _ (by norm_num), hd.w_lt, ?_⟩, ?_⟩
  · have hspan := span_pred hd.r_lt hd.w_lt hne.symm
    have hle := hd.le
    show span 18446744073709551616 ((d.r + 1) % 18446744073709551616) d.w ≤ _
    omega
  · exact window_pop hd.r_lt hd.w_lt hne.symm d.buf

theorem Ring.contents_nil (hd : d.Ring) (heq : d.w = d.r) : d.contents = [] := by
  rw [contents, heq]
  exact window_self hd.r_lt d.buf

theorem sent_send : (d.send c).sent = d.sent ++ [c] := by
  simp [sent, send]

/-- What happens without the lock adds nothing of `uartstart` and leaves the ring alone. -/
theorem env_frame (he : d.env e = some d') : d'.buf = d.buf ∧ d'.w = d.w ∧ d'.r = d.r ∧
    d'.accepted = d.accepted ∧ d'.sent = d.sent ∧
    (d'.fifo.length ≤ d.fifo.length ∨ d'.fifo.length ≤ 15) ∧
    (d.fifo ≠ [] ∨ d.pending = true → d'.fifo ≠ [] ∨ d'.pending = true) := by
  cases e with
  | transmit =>
    unfold env at he
    dsimp only at he
    split at he
    · cases he
    · next x rest hfifo =>
      cases he
      refine ⟨rfl, rfl, rfl, rfl, ?_, .inl ?_, fun _ => ?_⟩
      · simp [sent, hfifo]
      · simp [hfifo]
      · cases rest with
        | nil => simp
        | cons y rest => simp
  | sync b =>
    unfold env at he
    dsimp only at he
    split_ifs at he with hlt
    cases he
    refine ⟨rfl, rfl, rfl, rfl, ?_, .inr ?_, fun _ => ?_⟩
    · simp [sent]
    · simp only [List.length_append, List.length_singleton]
      omega
    · simp

/-! ## The invariant -/

/-- Nobody is in `uartstart`. -/
def Settled (v : ℕ → View Code) : Prop :=
  ∀ p, v p ≠ .active .start ∧ ∀ c, v p ≠ .active (.write c)

structure Ordered (d : Uart) (v : ℕ → View Code) : Prop where
  ring : d.Ring
  fifo_le : d.fifo.length ≤ 16
  queue : (∀ p c, v p ≠ .active (.write c)) → d.accepted = d.sent ++ d.contents
  /-- The byte that `uartstart` has taken from the ring and not yet given to the device. -/
  flight : ∀ p c, v p = .active (.write c) →
    d.accepted = d.sent ++ c :: d.contents ∧ d.fifo.length ≤ 15
  /-- Output goes on by itself: the device works or its interrupt is on the way. -/
  moving : Settled v → d.w = d.r ∨ d.fifo ≠ [] ∨ d.pending = true
  waits : ∀ p k, v p = .waiting k → k = .intr ∨ ∃ c, k = .putc c

/-- The invariant when only one process may be active. -/
theorem Ordered.update {p : ℕ} {w : View Code} (hd : Ordered d v) (hring : d'.Ring)
    (hfifo : d'.fifo.length ≤ 16)
    (hqueue : (∀ c, w ≠ .active (.write c)) → d'.accepted = d'.sent ++ d'.contents)
    (hflight : ∀ c, w = .active (.write c) →
      d'.accepted = d'.sent ++ c :: d'.contents ∧ d'.fifo.length ≤ 15)
    (hmoving : w ≠ .active .start → (∀ c, w ≠ .active (.write c)) →
      d'.w = d'.r ∨ d'.fifo ≠ [] ∨ d'.pending = true)
    (hwaits : ∀ k, w = .waiting k → k = .intr ∨ ∃ c, k = .putc c)
    (honly : ∀ q k, v q = .active k → q = p) : Ordered d' (Function.update v p w) := by
  have hself : Function.update v p w p = w := Function.update_self _ _ _
  have hactive : ∀ q k, Function.update v p w q = .active k → w = .active k := by
    intro q k hq
    by_cases hqp : q = p
    · rwa [hqp, hself] at hq
    · rw [Function.update_of_ne hqp] at hq
      exact absurd (honly q k hq) hqp
  refine ⟨hring, hfifo, fun h => hqueue fun c => hself ▸ h p c, fun q c hq => ?_, fun h => ?_,
    fun q k hq => ?_⟩
  · exact hflight c (hactive q _ hq)
  · obtain ⟨hstart, hwrite⟩ := h p
    rw [hself] at hstart
    refine hmoving hstart fun c hc => hwrite c ?_
    rw [hself, hc]
  · by_cases hqp : q = p
    · rw [hqp, hself] at hq
      exact hwaits k hq
    · rw [Function.update_of_ne hqp] at hq
      exact hd.waits q k hq

theorem Ordered.act {p : ℕ} {k : Code} {x : Next Uart Code} (hd : Ordered d v)
    (hp : v p = .active k) (honly : ∀ q k', v q = .active k' → q = p) (hact : d.act k = some x) :
    Ordered (x.data d) (Function.update v p x.view) := by
  have hsame : ∀ q k', v q = .active k' → k' = k := by
    intro q k' hq
    rw [honly q k' hq, hp] at hq
    exact (View.active.inj hq).symm
  cases k with simp only [Uart.act] at hact
  | free => cases hact
  | putc c =>
    have hno : ∀ q c', v q ≠ .active (.write c') := fun q c' hq => by cases hsame q _ hq
    have hsettled : Settled v := fun q => ⟨fun hq => (by cases hsame q _ hq), hno q⟩
    split_ifs at hact with hfull
    · cases hact
      exact hd.update hd.ring hd.fifo_le (fun _ => hd.queue hno) (by simp [Next.view])
        (fun _ _ => hd.moving hsettled) (by simp [Next.view]) honly
    · cases hact
      obtain ⟨hring, hcontents⟩ := hd.ring.push (c := c) (by simpa using hfull)
      refine hd.update hring hd.fifo_le (fun _ => ?_) (by simp [Next.view])
        (fun hstart => absurd rfl hstart) (by simp [Next.view]) honly
      show (d.push c).accepted = (d.push c).sent ++ (d.push c).contents
      rw [hcontents, ← List.append_assoc]
      exact congrArg (· ++ [c]) (hd.queue hno)
  | start =>
    have hno : ∀ q c', v q ≠ .active (.write c') := fun q c' hq => by cases hsame q _ hq
    split_ifs at hact with hempty hbusy
    · cases hact
      exact hd.update hd.ring hd.fifo_le (fun _ => hd.queue hno) (by simp [Next.view])
        (fun _ _ => .inl hempty) (by simp [Next.view]) honly
    · cases hact
      exact hd.update hd.ring hd.fifo_le (fun _ => hd.queue hno) (by simp [Next.view])
        (fun _ _ => .inr (.inl hbusy)) (by simp [Next.view]) honly
    · cases hact
      obtain ⟨hring, hcontents⟩ := hd.ring.pop hempty
      refine hd.update hring hd.fifo_le (fun h => absurd rfl (h _)) (fun c' hc' => ?_)
        (fun _ h => absurd rfl (h _)) (by simp [Next.view]) honly
      obtain rfl : d.buf (d.r % uartTxBufSize) = c' := by simpa [Next.view] using hc'
      refine ⟨?_, ?_⟩
      · show d.accepted = d.sent ++ _
        rw [hd.queue hno, hcontents]
        rfl
      · show d.fifo.length ≤ 15
        simp [not_not.mp hbusy]
  | write c =>
    cases hact
    obtain ⟨hqueue, hle⟩ := hd.flight p c hp
    refine hd.update ⟨hd.ring.r_lt, hd.ring.w_lt, hd.ring.le⟩ ?_ (fun _ => ?_)
      (by simp [Next.view]) (fun hstart => absurd rfl hstart) (by simp [Next.view]) honly
    · show (d.fifo ++ [(true, c)]).length ≤ 16
      rw [List.length_append, List.length_singleton]
      omega
    · show d.accepted = (d.send c).sent ++ d.contents
      rw [hqueue, sent_send, List.append_assoc]
      rfl
  | intr =>
    have hno : ∀ q c', v q ≠ .active (.write c') := fun q c' hq => by cases hsame q _ hq
    cases hact
    exact hd.update ⟨hd.ring.r_lt, hd.ring.w_lt, hd.ring.le⟩ hd.fifo_le (fun _ => hd.queue hno)
      (by simp [Next.view]) (fun hstart => absurd rfl hstart) (by simp [Next.view]) honly

theorem Ordered.section (hd : Ordered d v) (h : Monitor.Section client d v d' v') :
    Ordered d' v' := by
  cases h with
  | same => exact hd
  | call p k k' hp hmay =>
    change mayCall (v p) p k' = true at hmay
    have hne : ∀ q k, Function.update v p (.waiting k') q = .active k ↔ v q = .active k := by
      intro q k
      by_cases hqp : q = p
      · rw [hqp, Function.update_self, hp]
        simp
      · rw [Function.update_of_ne hqp]
    refine ⟨hd.ring, hd.fifo_le, fun h => hd.queue fun q c hq => h q c ((hne q _).mpr hq),
      fun q c hq => hd.flight q c ((hne q _).mp hq), fun h => hd.moving fun q => ?_,
      fun q k hq => ?_⟩
    · exact ⟨fun hq => (h q).1 ((hne q _).mpr hq), fun c hq => (h q).2 c ((hne q _).mpr hq)⟩
    · by_cases hqp : q = p
      · rw [hqp, Function.update_self] at hq
        cases hq
        rw [hp] at hmay
        cases k <;> cases k' <;> simp_all [mayCall]
      · rw [Function.update_of_ne hqp] at hq
        exact hd.waits q k hq
  | acquire p k hp hnone =>
    have hno : ∀ q c, v q ≠ .active (.write c) := fun q c => hnone q _
    have hsettled : Settled v := fun q => ⟨hnone q _, hno q⟩
    have hk := hd.waits p k hp
    refine hd.update hd.ring hd.fifo_le (fun _ => hd.queue hno) (fun c hc => ?_)
      (fun _ _ => hd.moving hsettled) (by simp) fun q k' hq => absurd hq (hnone q k')
    cases hc
    rcases hk with hk | ⟨c', hk⟩
    · cases hk
    · cases hk
  | act p t e k x hp honly hact => exact hd.act hp honly hact
  | env e d' he =>
    obtain ⟨hbuf, hw, hr, haccepted, hsent, hfifo, hmoving⟩ := env_frame he
    have hcontents : d'.contents = d.contents := by rw [contents, contents, hbuf, hw, hr]
    have hring := hd.ring
    refine ⟨⟨hr ▸ hring.r_lt, hw ▸ hring.w_lt, hr ▸ hw ▸ hring.le⟩, ?_, fun h => ?_,
      fun q c hq => ?_, fun h => ?_, hd.waits⟩
    · have := hd.fifo_le
      omega
    · rw [haccepted, hsent, hcontents, hd.queue h]
    · obtain ⟨hqueue, hle⟩ := hd.flight q c hq
      exact ⟨by rw [haccepted, hsent, hcontents, hqueue], by omega⟩
    · rw [hw, hr]
      exact (hd.moving h).imp_right hmoving

/-! ## Wakeups -/

/-- Nobody may sleep for room while there is some. -/
def bad (d : Uart) (c : ℕ) : Prop := c = chan ∧ d.full = false

theorem pays {k : Code} {x : Next Uart Code} (hact : d.act k = some x) :
    Monitor.Pays bad (fun _ _ => False) d k x := by
  cases k with simp only [Uart.act] at hact
  | free => cases hact
  | putc c =>
    split_ifs at hact with hfull
    · cases hact
      refine ⟨fun c hbad => .inr ⟨hbad, id⟩, ?_⟩
      rintro c k' - ⟨-, hroom⟩
      rw [hfull] at hroom
      cases hroom
    · cases hact
      exact ⟨fun c hbad => .inr ⟨⟨hbad.1, by simpa using hfull⟩, id⟩, nofun⟩
  | start =>
    split_ifs at hact
    · cases hact
      exact ⟨fun c hbad => .inr ⟨hbad, id⟩, nofun⟩
    · cases hact
      exact ⟨fun c hbad => .inr ⟨hbad, id⟩, nofun⟩
    · cases hact
      exact ⟨fun c hbad => .inl (.inl hbad.1), nofun⟩
  | write c =>
    cases hact
    exact ⟨fun c hbad => .inr ⟨hbad, id⟩, nofun⟩
  | intr =>
    cases hact
    exact ⟨fun c hbad => .inr ⟨hbad, id⟩, nofun⟩

/-- The UART behind `uartinit`. -/
def uartinit (junk : ℕ → Byte) : Uart := { buf := junk }

theorem ordered_init (junk : ℕ → Byte) : Ordered (uartinit junk) fun _ => .out .free := by
  have hring : (uartinit junk).Ring := by
    refine ⟨?_, ?_, ?_⟩
    · show 0 < 18446744073709551616
      norm_num
    · show 0 < 18446744073709551616
      norm_num
    · show span 18446744073709551616 0 0 ≤ uartTxBufSize
      decide
  refine ⟨hring, Nat.zero_le _, fun _ => ?_, nofun, fun _ => .inl rfl, nofun⟩
  rw [hring.contents_nil rfl]
  rfl

/-- In every run, with any number of writers and handlers: the bytes that `uartputc` accepted
are those that `uartstart` sent, the one it may be about to send, and those in the ring, in
this order; neither the ring nor the device overflows; and while the lock is free a byte in
the ring has the device busy or its interrupt on the way, and nobody sleeps unless the ring
is full. -/
theorem uart_transmits_in_order (junk : ℕ → Byte) (T : Table)
    (hT : ∀ p, (T p).state = .sleeping → (T p).chan ≠ chan) (s : Monitor Uart Code)
    (h : Reach (Monitor.step client) (Monitor.init (uartinit junk) T .free) s) :
    (∃ flight : List Byte, flight.length ≤ 1 ∧ (s.lk = none → flight = []) ∧
      s.data.accepted = s.data.sent ++ flight ++ s.data.contents) ∧
    s.data.contents.length ≤ uartTxBufSize ∧ s.data.fifo.length ≤ 16 ∧
    (s.lk = none → s.data.contents = [] ∨ s.data.fifo ≠ [] ∨ s.data.pending = true) ∧
    (s.lk = none → ∀ p, (s.table p).state = .sleeping → (s.table p).chan = chan →
      s.data.full = true) := by
  have hI : ∀ d v d' v', Ordered d v → Monitor.Section client d v d' v' → Ordered d' v' :=
    fun _ _ _ _ => Ordered.section
  obtain ⟨hlocked, hd⟩ := Monitor.section_invariant Ordered hI (ordered_init junk) h
  have hfree : s.lk = none → ∀ p k, s.view p ≠ .active k := fun hlk p k => hlocked.not_active hlk
  refine ⟨?_, ?_, hd.fifo_le, fun hlk => ?_, fun hlk p hstate hchan => ?_⟩
  · by_cases hw : ∃ p c, s.view p = .active (.write c)
    · obtain ⟨p, c, hp⟩ := hw
      refine ⟨[c], le_rfl, fun hlk => absurd hp (hfree hlk p _), ?_⟩
      rw [(hd.flight p c hp).1, List.append_assoc]
      rfl
    · refine ⟨[], Nat.zero_le _, fun _ => rfl, ?_⟩
      rw [hd.queue fun p c hp => hw ⟨p, c, hp⟩, List.append_nil]
  · rw [contents, window_length]
    exact hd.ring.le
  · refine (hd.moving fun p => ⟨hfree hlk p _, fun c => hfree hlk p _⟩).imp_left ?_
    exact hd.ring.contents_nil
  · have hsound : s.Sound client bad fun _ _ => False := by
      refine Monitor.sound_of_pays Ordered hI ?_ ?_ (ordered_init junk) ?_ h
      · exact fun s p e k x _ _ _ hact => pays hact
      · rintro d e d' c he ⟨hc, hfull⟩
        obtain ⟨-, hw, hr, -⟩ := env_frame he
        refine ⟨hc, ?_⟩
        rwa [full, hw, hr] at hfull
      · exact fun p hp => decide_eq_false (hT p hp)
    have hgood := hsound.not_bad hlk hstate (decide_eq_true hchan)
    by_contra hroom
    exact hgood ⟨hchan, by simpa using hroom⟩

/-- Process 0 hands over a byte, which leaves the device, and then another one. -/
def twoBytes : List (Move Code Event) :=
  [.call 0 (.putc 65), .run 0 .transmit, .run 0 .transmit, .run 0 .transmit] ++
    List.replicate (nproc + 1) (.run 0 .transmit) ++
    [.run 0 .transmit, .run 0 .transmit, .env .transmit, .call 0 (.putc 66), .run 0 .transmit,
      .run 0 .transmit]

theorem uart_transmits_in_order_twoBytes :
    ∃ s, Reach (Monitor.step client) (Monitor.init (uartinit fun _ => 5) Monitor.twoRunning .free)
        s ∧
      s.data.line = [(true, 65)] ∧ s.data.contents = [66] ∧
      (∃ flight : List Byte, flight.length ≤ 1 ∧ (s.lk = none → flight = []) ∧
        s.data.accepted = s.data.sent ++ flight ++ s.data.contents) ∧
      s.data.contents.length ≤ uartTxBufSize ∧ s.data.fifo.length ≤ 16 ∧
      (s.lk = none → s.data.contents = [] ∨ s.data.fifo ≠ [] ∨ s.data.pending = true) ∧
      (s.lk = none → ∀ p, (s.table p).state = .sleeping → (s.table p).chan = chan →
        s.data.full = true) := by
  have hrun : (runAll (Monitor.step client)
      (Monitor.init (uartinit fun _ => 5) Monitor.twoRunning .free) twoBytes).any (fun s =>
        s.data.line = [(true, 65)] ∧ s.data.contents = [66]) = true := by
    decide +kernel
  obtain ⟨s, hs, hend⟩ := (Option.any_eq_true _ _).mp hrun
  have hreach : Reach (Monitor.step client)
      (Monitor.init (uartinit fun _ => 5) Monitor.twoRunning .free) s := reach_of_runAll hs
  obtain ⟨hline, hcontents⟩ := of_decide_eq_true hend
  refine ⟨s, hreach, hline, hcontents, ?_⟩
  exact uart_transmits_in_order _ Monitor.twoRunning
    (fun p hp => absurd hp (Monitor.twoRunning_not_sleeping p)) s hreach

end Uart

end XV6AndConcurrency.Devices
