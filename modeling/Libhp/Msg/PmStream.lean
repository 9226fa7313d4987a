import Libhp.Msg.Pm

/-!
# Messages among garbage

A stream of PMMSG messages with garbage before, between and after them, in which the
magic never starts inside the garbage. However the stream is cut into chunks, the
unpacker returns exactly the messages, in order. What is left to read always begins in
garbage or at a message, and each call keeps it so.
-/
namespace Libhp.Msg
open ByteOrder CInt

section
variable (e : Endian)

/-- The magic does not start inside `g`, when `rest` follows it. -/
def NoMagic (g rest : List UInt8) : Prop :=
  ∀ i, i < g.length → pmMatch e ((g ++ rest).drop i) = false

/-- Messages, each with the garbage that follows it. -/
def pmTail : List (HpMsg × List UInt8) → List UInt8
  | [] => []
  | (m, g) :: ms => hpMsgBytes e m ++ (g ++ pmTail ms)

def pmStream (g : List UInt8) (ms : List (HpMsg × List UInt8)) : List UInt8 := g ++ pmTail e ms

def Clean : List UInt8 → List (HpMsg × List UInt8) → Prop
  | g, [] => NoMagic e g []
  | g, (m, g') :: ms => NoMagic e g (pmTail e ((m, g') :: ms)) ∧ Clean g' ms

/-- What may stay in the input buffer when `ms` is still to come: less than a header, or less
than the next message. -/
def Waits (buf : List UInt8) (ms : List (HpMsg × List UInt8)) : Prop :=
  buf.length < PM_HEADER_LEN ∨
    ∃ m g ms', ms = (m, g) :: ms' ∧ buf <+: hpMsgBytes e m ∧ buf.length < (hpMsgBytes e m).length

end

section
variable {e : Endian} {flags : Nat} {g buf later : List UInt8} {ms : List (HpMsg × List UInt8)}

theorem Clean.noMagic (h : Clean e g ms) : NoMagic e g (pmTail e ms) := by
  cases ms with
  | nil => exact h
  | cons m ms => exact h.1

theorem NoMagic.drop {rest : List UInt8} (h : NoMagic e g rest) {n : Nat} (hn : n ≤ g.length) :
    NoMagic e (g.drop n) rest := by
  intro i hi
  rw [List.length_drop] at hi
  have hat := h (n + i) (by omega)
  rwa [← List.drop_drop, List.drop_append_of_le_length hn] at hat

theorem Clean.drop (h : Clean e g ms) {n : Nat} (hn : n ≤ g.length) : Clean e (g.drop n) ms := by
  cases ms with
  | nil => exact NoMagic.drop h hn
  | cons m ms => exact ⟨NoMagic.drop h.1 hn, h.2⟩

/-- The comparison looks at four bytes only. -/
theorem pmMatch_append {a : List UInt8} (h : 4 ≤ a.length) (b : List UInt8) :
    pmMatch e (a ++ b) = pmMatch e a := by
  simp only [pmMatch, List.take_append_of_le_length h]

theorem pmSearch_spec (buf : List UInt8) : ∀ k n, n ≤ pmSearch e buf k n ∧
    pmSearch e buf k n ≤ n + k ∧
    ∀ i, n ≤ i → i < pmSearch e buf k n → pmMatch e (buf.drop i) = false := by
  intro k
  induction k with
  | zero =>
    intro n
    exact ⟨Nat.le_refl n, Nat.le_refl n, fun i h h' => absurd h' (Nat.not_lt.mpr h)⟩
  | succ k ih =>
    intro n
    unfold pmSearch
    split
    · exact ⟨Nat.le_refl n, Nat.le_add_right n _, fun i h h' => absurd h' (Nat.not_lt.mpr h)⟩
    · next hno =>
      obtain ⟨hle, hub, hnone⟩ := ih (n + 1)
      refine ⟨by omega, by omega, ?_⟩
      intro i hi hlt
      by_cases hin : i = n
      · rw [hin]
        exact Bool.eq_false_iff.mpr hno
      · exact hnone i (by omega) hlt

/-- Skipping never reaches the next message. -/
theorem skip_le (hlen : PM_HEADER_LEN ≤ buf.length) (hstream : buf ++ later = pmStream e g ms)
    (hno : pmMatch e buf = false) : pmSearch e buf (buf.length - 4 - 1) 1 ≤ g.length := by
  unfold PM_HEADER_LEN at hlen
  obtain ⟨hle, hub, hnone⟩ := pmSearch_spec (e := e) buf (buf.length - 4 - 1) 1
  by_contra hgt
  have hbuf : pmMatch e (buf.drop g.length) = false := by
    by_cases hg : g.length = 0
    · rw [hg, List.drop_zero]
      exact hno
    · exact hnone g.length (by omega) (by omega)
  cases ms with
  | nil =>
    have hsize := congrArg List.length hstream
    simp only [pmStream, pmTail, List.append_nil, List.length_append] at hsize
    omega
  | cons m ms =>
    have hdrop := congrArg (List.drop g.length) hstream
    rw [List.drop_append_of_le_length (by omega), pmStream, List.drop_left' rfl] at hdrop
    have hmatch := congrArg (pmMatch e) hdrop
    rw [pmMatch_append (by rw [List.length_drop]; omega), hbuf, pmTail, hpMsgBytes,
      List.append_assoc, pmMatch_header] at hmatch
    cases hmatch

/-- Where the magic stands the garbage is over. -/
theorem no_garbage_of_match (hlen : PM_HEADER_LEN ≤ buf.length)
    (hstream : buf ++ later = pmStream e g ms) (hclean : Clean e g ms)
    (hmatch : pmMatch e buf = true) : g = [] ∧ ∃ m g' ms', ms = (m, g') :: ms' := by
  unfold PM_HEADER_LEN at hlen
  have hg : g = [] := by
    cases g with
    | nil => rfl
    | cons b g =>
      have hat := hclean.noMagic 0 (Nat.succ_pos _)
      rw [List.drop_zero, ← pmStream, ← hstream, pmMatch_append (by omega), hmatch] at hat
      cases hat
  refine ⟨hg, ?_⟩
  cases ms with
  | nil =>
    have hsize := congrArg List.length hstream
    simp only [hg, pmStream, pmTail, List.append_nil, List.length_append, List.length_nil] at hsize
    omega
  | cons m ms => exact ⟨m.1, m.2, ms, rfl⟩

theorem prefix_split {α : Type} {a b c d : List α} (h : a ++ b = c ++ d)
    (hlen : c.length ≤ a.length) : ∃ a', a = c ++ a' ∧ a' ++ b = d := by
  rcases List.append_eq_append_iff.mp h with ⟨x, rfl, rfl⟩ | ⟨x, rfl, hd⟩
  · have hx : x = [] := by
      rw [List.length_append] at hlen
      exact List.eq_nil_of_length_eq_zero (by omega)
    exact ⟨[], by simp [hx], by simp [hx]⟩
  · exact ⟨x, rfl, hd.symm⟩

/-- What a call of `hp_pm_pack` does to a stream. -/
def PackSpec (e : Endian) (buf later : List UInt8) (ms : List (HpMsg × List UInt8))
    (r : PmRes) : Prop :=
  match r.msg with
  | some m => ∃ g' ms', ms = (m, g') :: ms' ∧ r.buf ++ later = pmStream e g' ms' ∧
      r.rc = PM_HEADER_LEN + m.len ∧ r.buf.length < buf.length
  | none => ∃ g', r.buf ++ later = pmStream e g' ms ∧ Clean e g' ms ∧ Waits e r.buf ms ∧ r.rc = 0

/-- A buffer that begins with the magic. -/
theorem packMessage_spec {m : HpMsg} {g' : List UInt8} (hlen : PM_HEADER_LEN ≤ buf.length)
    (hvalid : m.Valid) (hclean : Clean e [] ((m, g') :: ms))
    (hstream : buf ++ later = pmStream e [] ((m, g') :: ms)) (hmatch : pmMatch e buf = true)
    (fuel : Nat) : ∃ r, hpPmPackLoop e flags (fuel + 1) buf = some r ∧
      PackSpec e buf later ((m, g') :: ms) r := by
  have hstream' : buf ++ later = hpMsgBytes e m ++ (g' ++ pmTail e ms) := by
    rw [hstream, pmStream, pmTail, List.nil_append]
  have hnonneg := hvalid.nonneg
  have hfits := hvalid.fits
  have hcast : ((m.len.toNat : Nat) : Int) = m.len := Int.toNat_of_nonneg hnonneg
  have hbytes : (hpMsgBytes e m).length = PM_HEADER_LEN + m.len.toNat := length_hpMsgBytes hvalid
  have hsize : toSize (pmBodyLen e buf) = m.len.toNat := by
    rw [hpMsgBytes, List.append_assoc] at hstream'
    obtain ⟨b, rfl, -⟩ := prefix_split hstream' (by rw [length_hpMsgHeader]; exact hlen)
    exact toSize_bodyLen hvalid b
  rw [hpPmPackLoop_header hlen hmatch, hsize]
  by_cases hfull : buf.length - PM_HEADER_LEN ≥ m.len.toNat
  · obtain ⟨rest, rfl, hrest⟩ := prefix_split hstream' (by omega)
    rw [if_pos hfull, if_neg (by omega), drop_hpMsgBytes hvalid, pmMessage_bytes hvalid]
    refine ⟨_, rfl, g', ms, rfl, hrest, by rw [hcast], ?_⟩
    rw [List.length_append, hbytes]
    change rest.length < 20 + _ + _
    omega
  · rw [if_neg hfull]
    have hshort : buf.length < (hpMsgBytes e m).length := by omega
    refine ⟨_, rfl, [], hstream, hclean, .inr ⟨m, g', ms, rfl, ?_, hshort⟩, rfl⟩
    rcases List.append_eq_append_iff.mp hstream' with ⟨x, hx, -⟩ | ⟨x, hx, -⟩
    · exact ⟨x, hx.symm⟩
    · rw [hx, List.length_append] at hshort
      omega

theorem packLoop_spec (hflags : flags &&& PMRW_NOSKIP = 0) (hvalid : ∀ m ∈ ms, m.1.Valid) :
    ∀ (fuel : Nat) (buf g : List UInt8), buf.length < fuel → buf ++ later = pmStream e g ms →
      Clean e g ms → ∃ r, hpPmPackLoop e flags fuel buf = some r ∧ PackSpec e buf later ms r := by
  intro fuel
  induction fuel with
  | zero =>
    intro buf g hfuel
    exact absurd hfuel (Nat.not_lt_zero _)
  | succ fuel ih =>
    intro buf g hfuel hstream hclean
    by_cases hlen : buf.length < PM_HEADER_LEN
    · refine ⟨⟨0, buf, none⟩, by simp only [hpPmPackLoop, hlen, ↓reduceIte], g, hstream, hclean,
        .inl hlen, rfl⟩
    · have hlen' := Nat.not_lt.mp hlen
      cases hmatch : pmMatch e buf with
      | true =>
        obtain ⟨rfl, m, g', ms', rfl⟩ := no_garbage_of_match hlen' hstream hclean hmatch
        exact packMessage_spec hlen' (hvalid _ (List.mem_cons_self ..)) hclean hstream hmatch fuel
      | false =>
        have hskip := skip_le hlen' hstream hmatch
        obtain ⟨hpos, hub, -⟩ := pmSearch_spec (e := e) buf (buf.length - 4 - 1) 1
        have hsize : PM_HEADER_LEN = 20 := rfl
        generalize hn : pmSearch e buf (buf.length - 4 - 1) 1 = n at hskip hpos hub
        have hstream' : buf.drop n ++ later = pmStream e (g.drop n) ms := by
          rw [pmStream, ← List.drop_append_of_le_length hskip, ← pmStream, ← hstream,
            List.drop_append_of_le_length (by omega)]
        obtain ⟨r, hr, hspec⟩ := ih (buf.drop n) (g.drop n)
          (by rw [List.length_drop]; omega) hstream' (hclean.drop hskip)
        refine ⟨r, ?_, ?_⟩
        · simp only [hpPmPackLoop, hlen, hmatch, hflags, hn, ↓reduceIte, Bool.false_eq_true,
            not_false_eq_true, ne_eq, not_true_eq_false]
          exact hr
        · unfold PackSpec at hspec ⊢
          split
          · next m hm =>
            rw [hm] at hspec
            obtain ⟨g', ms', hms, hbuf, hrc, hshort⟩ := hspec
            rw [List.length_drop] at hshort
            exact ⟨g', ms', hms, hbuf, hrc, by omega⟩
          · next hm =>
            rw [hm] at hspec
            exact hspec

/-- `out` has been taken off the front of `ms`, and `buf` waits for the rest. -/
def Took (e : Endian) (ms : List (HpMsg × List UInt8)) (out : List HpMsg)
    (buf later : List UInt8) : Prop :=
  ∃ pre g ms', ms = pre ++ ms' ∧ pre.map Prod.fst = out ∧ buf ++ later = pmStream e g ms' ∧
    Clean e g ms' ∧ Waits e buf ms'

theorem Took.trans {out out' : List HpMsg} {buf' later' : List UInt8}
    {pre ms' : List (HpMsg × List UInt8)} (hms : ms = pre ++ ms') (hout : pre.map Prod.fst = out)
    (h : Took e ms' out' buf' later') : Took e ms (out ++ out') buf' later' := by
  obtain ⟨pre', g, ms'', rfl, rfl, hbuf, hclean, hwaits⟩ := h
  exact ⟨pre ++ pre', g, ms'', by rw [hms, List.append_assoc], by rw [List.map_append, hout], hbuf,
    hclean, hwaits⟩

/-- Calling `hp_pm_pack` until it returns no message ends, and takes off whole messages. -/
theorem pmDrain_spec (hflags : flags &&& PMRW_NOSKIP = 0) :
    ∀ (fuel : Nat) {buf g : List UInt8} {ms : List (HpMsg × List UInt8)}, buf.length < fuel →
      buf ++ later = pmStream e g ms → Clean e g ms → (∀ m ∈ ms, m.1.Valid) →
      ∃ out buf', pmDrain e flags fuel buf = some (out, buf') ∧ Took e ms out buf' later := by
  intro fuel
  induction fuel with
  | zero =>
    intro buf g ms hfuel
    exact absurd hfuel (Nat.not_lt_zero _)
  | succ fuel ih =>
    intro buf g ms hfuel hstream hclean hvalid
    obtain ⟨r, hr, hspec⟩ :=
      packLoop_spec hflags hvalid _ buf g (Nat.lt_succ_self _) hstream hclean
    have hpack : hpPmPack e flags buf = some r := hr
    unfold PackSpec at hspec
    cases hmsg : r.msg with
    | none =>
      rw [hmsg] at hspec
      obtain ⟨g', hbuf, hclean', hwaits, -⟩ := hspec
      refine ⟨[], r.buf, ?_, [], g', ms, rfl, rfl, hbuf, hclean', hwaits⟩
      simp only [pmDrain, hpack, Option.bind_some, hmsg]
    | some m =>
      rw [hmsg] at hspec
      obtain ⟨g', ms', rfl, hbuf, -, hshort⟩ := hspec
      obtain ⟨out, buf', hdrain, htook⟩ := ih (by omega) hbuf hclean.2
        fun x hx => hvalid x (List.mem_cons_of_mem _ hx)
      have hone : [(m, g')].map Prod.fst = [m] := rfl
      refine ⟨m :: out, buf', ?_, htook.trans (by rfl) hone⟩
      simp only [pmDrain, hpack, Option.bind_some, hmsg, hdrain, Option.map_some]

theorem pmRun_spec (hflags : flags &&& PMRW_NOSKIP = 0) :
    ∀ (cs : List (List UInt8)) {buf g : List UInt8} {ms : List (HpMsg × List UInt8)},
      buf ++ (cs.flatten ++ later) = pmStream e g ms → Clean e g ms → Waits e buf ms →
      (∀ m ∈ ms, m.1.Valid) →
      ∃ out buf', pmRun e flags cs buf = some (out, buf') ∧ Took e ms out buf' later := by
  intro cs
  induction cs with
  | nil =>
    intro buf g ms hstream hclean hwaits _
    exact ⟨[], buf, rfl, [], g, ms, rfl, rfl, hstream, hclean, hwaits⟩
  | cons c cs ih =>
    intro buf g ms hstream hclean _ hvalid
    have hstream' : (buf ++ c) ++ (cs.flatten ++ later) = pmStream e g ms := by
      rw [← hstream, List.flatten_cons, List.append_assoc, List.append_assoc]
    obtain ⟨out, buf', hdrain, pre, g', ms', hms, hout, hbuf, hclean', hwaits⟩ :=
      pmDrain_spec hflags _ (Nat.lt_succ_self _) hstream' hclean hvalid
    obtain ⟨out', buf'', hrun, htook⟩ := ih hbuf hclean' hwaits fun x hx =>
      hvalid x (by rw [hms]; exact List.mem_append_right _ hx)
    refine ⟨out ++ out', buf'', ?_, htook.trans hms hout⟩
    simp only [pmRun, hdrain, Option.bind_some, hrun, Option.map_some]

/-- When the stream has ended, no message is left. -/
theorem Waits.done (h : Waits e buf ms) (hbuf : buf = pmStream e g ms) : ms = [] := by
  cases ms with
  | nil => rfl
  | cons m ms =>
    have hsize : (hpMsgBytes e m.1).length ≤ buf.length := by
      rw [hbuf, pmStream, pmTail, List.length_append, List.length_append]
      omega
    rcases h with hshort | ⟨m', g', ms', heq, -, hshort⟩
    · have hhdr := length_hpMsgHeader e m.1
      rw [hpMsgBytes, List.length_append] at hsize
      change buf.length < 20 at hshort
      omega
    · cases heq
      exact absurd hshort (Nat.not_lt.mpr hsize)

end

/-- The messages come out in order, whatever the chunks. At every point they are the first ones
of the stream; at its end they are all of them. What stays in the buffer is shorter than a
header, or the beginning of the next message. -/
theorem pm_stream_round_trip (e : Endian) (flags : Nat) (hflags : flags &&& PMRW_NOSKIP = 0)
    (g : List UInt8) (ms : List (HpMsg × List UInt8)) (hvalid : ∀ m ∈ ms, m.1.Valid)
    (hclean : Clean e g ms) (cs : List (List UInt8)) (later : List UInt8)
    (hstream : cs.flatten ++ later = pmStream e g ms) :
    ∃ out buf, pmRun e flags cs [] = some (out, buf) ∧ out <+: ms.map Prod.fst ∧
      (later = [] → out = ms.map Prod.fst) ∧
      (buf.length < PM_HEADER_LEN ∨ ∃ m, (ms.map Prod.fst)[out.length]? = some m ∧
        buf <+: hpMsgBytes e m ∧ buf.length < (hpMsgBytes e m).length) := by
  have hstart : [] ++ (cs.flatten ++ later) = pmStream e g ms := hstream
  obtain ⟨out, buf, hrun, pre, g', ms', rfl, rfl, hbuf, hclean', hwaits⟩ :=
    pmRun_spec hflags cs hstart hclean (.inl (by decide)) hvalid
  refine ⟨_, buf, hrun, ⟨ms'.map Prod.fst, (List.map_append ..).symm⟩, ?_, ?_⟩
  · intro hlater
    rw [hlater, List.append_nil] at hbuf
    rw [hwaits.done hbuf, List.append_nil]
  · rcases hwaits with hshort | ⟨m, g'', ms'', rfl, hpre, hshort⟩
    · exact .inl hshort
    · refine .inr ⟨m, ?_, hpre, hshort⟩
      rw [List.map_append, List.getElem?_append_right (Nat.le_refl _), Nat.sub_self]
      rfl

/-- One message behind a byte of garbage, cut inside its header. -/
theorem pm_stream_round_trip_one :
    ∃ out buf, pmRun .little 0
        [7 :: (hpMsgHeader .little ⟨1, 2, 3, [9], 1⟩).take 6,
          (hpMsgHeader .little ⟨1, 2, 3, [9], 1⟩).drop 6 ++ [9]] [] = some (out, buf) ∧
      out = [⟨1, 2, 3, [9], 1⟩] := by
  have hvalid : (⟨1, 2, 3, [9], 1⟩ : HpMsg).Valid := ⟨by decide, by decide, by decide⟩
  have hclean : Clean .little [7] [(⟨1, 2, 3, [9], 1⟩, [])] := by
    refine ⟨?_, fun i hi => absurd hi (Nat.not_lt_zero i)⟩
    intro i hi
    obtain rfl : i = 0 := Nat.lt_one_iff.mp hi
    decide
  obtain ⟨out, buf, hrun, -, hall, -⟩ := pm_stream_round_trip .little 0 (by decide) [7]
    [(⟨1, 2, 3, [9], 1⟩, [])] (fun m hm => by rw [List.mem_singleton.mp hm]; exact hvalid) hclean
    [7 :: (hpMsgHeader .little ⟨1, 2, 3, [9], 1⟩).take 6,
      (hpMsgHeader .little ⟨1, 2, 3, [9], 1⟩).drop 6 ++ [9]] [] (by decide)
  exact ⟨out, buf, hrun, hall rfl⟩

end Libhp.Msg
