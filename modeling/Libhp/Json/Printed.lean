import Libhp.Json.Cjson

/-!
# Who frees what cJSON prints

`cjson_print`, `cjson_cstr` and `cjson_sval` of `hp_cjson.c` keep the buffers that cJSON prints
into in two static pointers. A buffer is a number, given out once; `none` as a result means that a
buffer is freed for the second time.
-/
namespace Libhp.Json

inductive Fn where
  | print
  | cstr
  | sval
  deriving DecidableEq

/-- What `cjson_sval` asks of a tree: `cjson_`, the type of a node, and whether the key ends in a
range `[b,e]`. -/
structure Nodes (P : Type) where
  lookup : P → Text → Option P
  isObject : P → Bool
  isArray : P → Bool
  ranged : Text → Bool

/-- A call, and whether there is memory to print. -/
inductive Call (P : Type) where
  | print (json : Option P) (mem : Bool)
  | cstr (json : Option P) (mem : Bool)
  | sval (cjson : Option P) (key : Option Text) (mem : Bool)

/-- The static pointers `ret` of `cjson_print` and `s` of `cjson_cstr`, the buffers freed and the
number of the next one. -/
structure Statics where
  next : Nat
  freed : List Nat
  ret : Option Nat
  s : Option Nat

/-- `if(p) free(p);` -/
def Statics.free (st : Statics) : Option Nat → Option Statics
  | none => some st
  | some b => if b ∈ st.freed then none else some { st with freed := b :: st.freed }

/-- `cJSON_PrintUnformatted` and `cJSON_Print`: a new buffer or `NULL`. -/
def Statics.printed (st : Statics) (ok : Bool) : Statics × Option Nat :=
  if ok then ({ st with next := st.next + 1 }, some st.next) else (st, none)

section
variable {P : Type} (nodes : Nodes P)

def cjsonPrint (st : Statics) (json : Option P) (mem : Bool) : Option (Statics × Option Nat) :=
  (st.free st.ret).map fun st =>
    let (st, ret) := st.printed (json.isSome && mem)
    ({ st with ret := ret }, ret)

def cjsonCstr (st : Statics) (json : Option P) (mem : Bool) : Option (Statics × Option Nat) :=
  (st.free st.s).bind fun st =>
    (cjsonPrint st json mem).map fun (st, s) => ({ st with s := s }, s)

/-- `cjson_sval`, where a result that was not printed is `none`. -/
def cjsonSval (st : Statics) (cjson : Option P) (key : Option Text) (mem : Bool) :
    Option (Statics × Option Nat) :=
  match cjson, key with
  | some cjson, some key =>
    if nodes.ranged key then some (st, none)
    else
      match nodes.lookup cjson key with
      | some json =>
        if nodes.isObject json || nodes.isArray json then cjsonPrint st (some json) mem
        else some (st, none)
      | none => some (st, none)
  | _, _ => some (st, none)

/-- The static pointers, and what each function has returned last of what was printed. -/
structure World where
  st : Statics
  held : Fn → Option Nat

def Call.fn : Call P → Fn
  | .print _ _ => .print
  | .cstr _ _ => .cstr
  | .sval _ _ _ => .sval

def Call.run (st : Statics) : Call P → Option (Statics × Option Nat)
  | .print json mem => cjsonPrint st json mem
  | .cstr json mem => cjsonCstr st json mem
  | .sval cjson key mem => cjsonSval nodes st cjson key mem

def World.call (w : World) (c : Call P) : Option World :=
  (c.run nodes w.st).map fun (st, r) => ⟨st, Function.update w.held c.fn r⟩

/-- What a function has returned is valid until its next call. -/
def World.Valid (w : World) : Prop := ∀ f b, w.held f = some b → b ∉ w.st.freed

/-- No call frees a buffer twice, and after each the pointers returned last are valid. -/
def Sound : World → List (Call P) → Prop
  | _, [] => True
  | w, c :: cs => ∃ w', w.call nodes c = some w' ∧ w'.Valid ∧ Sound w' cs

/-- Before the first call. -/
def World.start : World := ⟨⟨0, [], none, none⟩, fun _ => none⟩

/-- The node that `cjson_sval` prints. -/
def svalPrints (cjson : Option P) (key : Option Text) : Option P :=
  cjson.bind fun cjson => key.bind fun key =>
    if nodes.ranged key then none
    else (nodes.lookup cjson key).filter fun json => nodes.isObject json || nodes.isArray json

/-- Whether a call prints, and whether there is a buffer then. -/
def Call.prints : Call P → Option Bool
  | .print json mem => some (json.isSome && mem)
  | .cstr json mem => some (json.isSome && mem)
  | .sval cjson key mem => (svalPrints nodes cjson key).map fun _ => mem

/-- While a function has the pointer printed last, only that function prints, and `cjson_cstr`
is not called again once it has printed. A `cjson_sval` that does not print gives up the pointer
that `cjson_sval` has. -/
def Tidy : Option Fn → Bool → List (Call P) → Prop
  | _, _, [] => True
  | holder, out, c :: cs =>
    match c.prints nodes with
    | none => Tidy (if holder = some .sval then none else holder) out cs
    | some ok =>
      (holder = none ∨ holder = some c.fn) ∧ (c.fn = .cstr → out = false) ∧
        Tidy (if ok then some c.fn else none) (if c.fn = .cstr then ok else out) cs

end

/-- Only the buffer in `ret` is not freed, it is what `holder` has returned, and `s` is that
buffer or a freed one. -/
structure World.Inv (w : World) (holder : Option Fn) (out : Bool) : Prop where
  old : ∀ b ∈ w.st.freed, b < w.st.next
  ret : ∀ b, w.st.ret = some b → b < w.st.next ∧ b ∉ w.st.freed
  held : ∀ f, w.held f = if holder = some f then w.st.ret else none
  holder : ∀ f, holder = some f → w.st.ret.isSome
  s : ∀ b, w.st.s = some b → b ∈ w.st.freed ∨ w.st.ret = some b
  out : out = w.st.s.isSome

theorem inv_start : World.start.Inv none false :=
  ⟨by simp [World.start], by simp [World.start], by simp [World.start], by simp,
    by simp [World.start], rfl⟩

theorem World.Inv.valid {w : World} {holder : Option Fn} {out : Bool} (h : w.Inv holder out) :
    w.Valid := by
  intro f b hheld
  rw [h.held f] at hheld
  split at hheld
  · exact (h.ret b hheld).2
  · cases hheld

section
variable {P : Type} {nodes : Nodes P} {w : World} {holder : Option Fn} {out : Bool}

/-- The static pointers after something was printed. -/
def Statics.next' (st : Statics) (ok : Bool) : Statics :=
  ⟨if ok then st.next + 1 else st.next, st.ret.toList ++ st.freed, if ok then some st.next else none,
    st.s⟩

theorem cjsonPrint_eq {st : Statics} (h : ∀ b, st.ret = some b → b ∉ st.freed) (json : Option P)
    (mem : Bool) :
    cjsonPrint st json mem =
      some (st.next' (json.isSome && mem), (st.next' (json.isSome && mem)).ret) := by
  obtain ⟨next, freed, ret, s⟩ := st
  unfold cjsonPrint
  generalize (json.isSome && mem) = ok
  cases ret with
  | none => cases ok <;> simp [Statics.free, Statics.printed, Statics.next']
  | some b =>
    have hb : b ∉ freed := h b rfl
    cases ok <;> simp [Statics.free, Statics.printed, Statics.next', hb]

/-- A second buffer of `cjson_cstr` frees the first one twice. -/
theorem cjsonCstr_twice (h : w.Inv holder out) {b : Nat} (hs : w.st.s = some b) (json : Option P)
    (mem : Bool) : cjsonCstr w.st json mem = none := by
  rw [cjsonCstr, hs]
  by_cases hfreed : b ∈ w.st.freed
  · have hfree : w.st.free (some b) = none := if_pos hfreed
    rw [hfree]
    rfl
  · have hret := (h.s b hs).resolve_left hfreed
    have hfree : w.st.free (some b) = some { w.st with freed := b :: w.st.freed } := if_neg hfreed
    have hagain : ({ w.st with freed := b :: w.st.freed } : Statics).free (some b) = none :=
      if_pos List.mem_cons_self
    rw [hfree, Option.bind_some, cjsonPrint, hret, hagain]
    rfl

theorem cjsonSval_eq (st : Statics) (cjson : Option P) (key : Option Text) (mem : Bool) :
    cjsonSval nodes st cjson key mem =
      match svalPrints nodes cjson key with
      | some json => cjsonPrint st (some json) mem
      | none => some (st, none) := by
  cases cjson with
  | none => rfl
  | some cjson =>
    cases key with
    | none => rfl
    | some key =>
      simp only [cjsonSval, svalPrints, Option.bind_some]
      split
      · rfl
      · cases nodes.lookup cjson key with
        | none => rfl
        | some json =>
          cases hcontainer : nodes.isObject json || nodes.isArray json <;>
            simp only [Option.filter_some, hcontainer] <;> rfl

/-- The static pointers after a call that prints. -/
def Call.after (c : Call P) (st : Statics) (ok : Bool) : Statics :=
  if c.fn = .cstr then { st.next' ok with s := (st.next' ok).ret } else st.next' ok

/-- A call that prints, and does not come behind a `cjson_cstr` that has printed if it is one. -/
theorem run_prints (h : w.Inv holder out) {c : Call P} {ok : Bool} (hc : c.prints nodes = some ok)
    (hout : c.fn = .cstr → out = false) :
    c.run nodes w.st = some (c.after w.st ok, (w.st.next' ok).ret) := by
  have hlive : ∀ b, w.st.ret = some b → b ∉ w.st.freed := fun b hb => (h.ret b hb).2
  cases c with
  | print json mem =>
    cases hc
    exact cjsonPrint_eq hlive json mem
  | cstr json mem =>
    cases hc
    have hs : w.st.s = none := by
      have hnone := h.out.symm.trans (hout rfl)
      rwa [Option.isSome_eq_false_iff, Option.isNone_iff_eq_none] at hnone
    have hprint := cjsonPrint_eq hlive json mem
    show cjsonCstr w.st json mem = _
    rw [cjsonCstr, hs, Statics.free, Option.bind_some, hprint]
    rfl
  | sval cjson key mem =>
    obtain ⟨json, hjson, rfl⟩ := Option.map_eq_some_iff.mp hc
    show cjsonSval nodes w.st cjson key mem = _
    rw [cjsonSval_eq, hjson]
    exact cjsonPrint_eq hlive (some json) mem

/-- A call that does not print is one of `cjson_sval`. -/
theorem run_quiet {c : Call P} (hc : c.prints nodes = none) (st : Statics) :
    c.run nodes st = some (st, none) ∧ c.fn = .sval := by
  cases c with
  | print json mem => cases hc
  | cstr json mem => cases hc
  | sval cjson key mem =>
    refine ⟨?_, rfl⟩
    show cjsonSval nodes st cjson key mem = _
    rw [cjsonSval_eq, Option.map_eq_none_iff.mp hc]

/-- A quiet call takes back what `cjson_sval` has returned before. -/
theorem inv_quiet (h : w.Inv holder out) {c : Call P} (hc : c.prints nodes = none) :
    ∃ w', w.call nodes c = some w' ∧
      w'.Inv (if holder = some .sval then none else holder) out := by
  obtain ⟨hrun, hfn⟩ := run_quiet hc w.st
  refine ⟨⟨w.st, Function.update w.held c.fn none⟩, by rw [World.call, hrun]; rfl, h.old, h.ret,
    fun f => ?_, fun f hf => ?_, h.s, h.out⟩
  · rw [hfn]
    by_cases hf : f = .sval
    · show Function.update w.held .sval none f = _
      rw [hf, Function.update_self]
      by_cases hholder : holder = some .sval <;> simp [hholder]
    · show Function.update w.held .sval none f = _
      rw [Function.update_of_ne hf, h.held f]
      by_cases hholder : holder = some .sval
      · simp [hholder, Ne.symm hf]
      · simp [hholder]
  · split at hf
    · cases hf
    · exact h.holder f hf

/-- A call that prints. -/
theorem call_prints (h : w.Inv holder out) {c : Call P} {ok : Bool}
    (hc : c.prints nodes = some ok) (hout : c.fn = .cstr → out = false) :
    w.call nodes c =
      some ⟨c.after w.st ok, Function.update w.held c.fn (w.st.next' ok).ret⟩ := by
  rw [World.call, run_prints h hc hout]
  rfl

theorem after_ret (c : Call P) (st : Statics) (ok : Bool) :
    (c.after st ok).ret = (st.next' ok).ret ∧ (c.after st ok).freed = (st.next' ok).freed ∧
      (c.after st ok).next = (st.next' ok).next := by
  unfold Call.after
  split <;> exact ⟨rfl, rfl, rfl⟩

/-- Only what the same function has returned may be freed. -/
theorem valid_prints (h : w.Inv holder out) {c : Call P} {ok : Bool} :
    (⟨c.after w.st ok, Function.update w.held c.fn (w.st.next' ok).ret⟩ : World).Valid ↔
      (holder = none ∨ holder = some c.fn) := by
  obtain ⟨-, hfreed, -⟩ := after_ret c w.st ok
  have hnext : ∀ b, (w.st.next' ok).ret = some b → b ∉ w.st.ret.toList ++ w.st.freed := by
    intro b hb hmem
    have hb' : b = w.st.next := by
      cases ok with
      | false => cases hb
      | true => exact (Option.some.inj hb).symm
    rcases List.mem_append.mp hmem with hmem | hmem
    · have := (h.ret b (Option.mem_toList.mp hmem)).1
      omega
    · have := h.old b hmem
      omega
  constructor
  · intro hvalid
    cases hholder : holder with
    | none => exact Or.inl rfl
    | some f =>
      refine Or.inr (congrArg some ?_)
      by_contra hne
      obtain ⟨b, hb⟩ := Option.isSome_iff_exists.mp (h.holder f hholder)
      have hheld : Function.update w.held c.fn (w.st.next' ok).ret f = some b := by
        rw [Function.update_of_ne hne, h.held f, if_pos hholder, hb]
      apply hvalid f b hheld
      show b ∈ (c.after w.st ok).freed
      rw [hfreed]
      exact List.mem_append_left _ (Option.mem_toList.mpr hb)
  · intro hholder f b hheld
    show b ∉ (c.after w.st ok).freed
    rw [hfreed]
    by_cases hf : f = c.fn
    · change Function.update w.held c.fn (w.st.next' ok).ret f = some b at hheld
      rw [hf, Function.update_self] at hheld
      exact hnext b hheld
    · change Function.update w.held c.fn (w.st.next' ok).ret f = some b at hheld
      rw [Function.update_of_ne hf, h.held f] at hheld
      rcases hholder with hnone | hsome
      · simp [hnone] at hheld
      · simp [hsome, Ne.symm hf] at hheld

/-- The state after a call that prints, if it is sound. -/
theorem inv_prints (h : w.Inv holder out) {c : Call P} {ok : Bool}
    (hholder : holder = none ∨ holder = some c.fn) :
    (⟨c.after w.st ok, Function.update w.held c.fn (w.st.next' ok).ret⟩ : World).Inv
      (if ok then some c.fn else none) (if c.fn = .cstr then ok else out) := by
  obtain ⟨hret, hfreed, hnext⟩ := after_ret c w.st ok
  have hnew : (w.st.next' ok).ret = if ok then some w.st.next else none := rfl
  have hmem : ∀ b ∈ w.st.ret.toList ++ w.st.freed, b < w.st.next := by
    intro b hb
    rcases List.mem_append.mp hb with hb | hb
    · exact (h.ret b (Option.mem_toList.mp hb)).1
    · exact h.old b hb
  have hle : w.st.next ≤ (w.st.next' ok).next := by
    cases ok
    · exact le_rfl
    · exact Nat.le_succ _
  constructor
  case old =>
    intro b hb
    change b ∈ (c.after w.st ok).freed at hb
    rw [hfreed] at hb
    show b < (c.after w.st ok).next
    rw [hnext]
    exact (hmem b hb).trans_le hle
  case ret =>
    intro b hb
    change (c.after w.st ok).ret = some b at hb
    show b < (c.after w.st ok).next ∧ b ∉ (c.after w.st ok).freed
    rw [hret, hnew] at hb
    rw [hnext, hfreed]
    cases ok with
    | false => cases hb
    | true =>
      obtain rfl := Option.some.inj hb
      exact ⟨Nat.lt_succ_self _, fun hmem' => lt_irrefl _ (hmem _ hmem')⟩
  case held =>
    intro f
    show Function.update w.held c.fn (w.st.next' ok).ret f =
      if _ then (c.after w.st ok).ret else none
    rw [hret]
    by_cases hf : f = c.fn
    · rw [hf, Function.update_self, hnew]
      cases ok <;> simp
    · rw [Function.update_of_ne hf, h.held f]
      have hne : holder ≠ some f := by
        rcases hholder with hnone | hsome
        · simp [hnone]
        · simp [hsome, Ne.symm hf]
      rw [if_neg hne]
      cases ok <;> simp [Ne.symm hf]
  case holder =>
    intro f hf
    show (c.after w.st ok).ret.isSome
    rw [hret, hnew]
    cases ok with
    | false => cases hf
    | true => rfl
  case s =>
    intro b hb
    change (c.after w.st ok).s = some b at hb
    show b ∈ (c.after w.st ok).freed ∨ (c.after w.st ok).ret = some b
    rw [hret, hfreed]
    unfold Call.after at hb
    split at hb
    · exact Or.inr hb
    · apply Or.inl
      rcases h.s b hb with hmem' | hmem'
      · exact List.mem_append_right _ hmem'
      · exact List.mem_append_left _ (Option.mem_toList.mpr hmem')
  case out =>
    show _ = (c.after w.st ok).s.isSome
    unfold Call.after
    split
    · show ok = (w.st.next' ok).ret.isSome
      cases ok <;> rfl
    · exact h.out

/-- Calls are sound exactly if they are tidy. -/
theorem sound_from (cs : List (Call P)) (h : w.Inv holder out) :
    Sound nodes w cs ↔ Tidy nodes holder out cs := by
  induction cs generalizing w holder out with
  | nil => exact Iff.rfl
  | cons c cs ih =>
    rw [Sound, Tidy]
    cases hc : c.prints nodes with
    | none =>
      obtain ⟨w', hcall, hinv⟩ := inv_quiet h hc
      constructor
      · intro ⟨w'', hcall', _, hrest⟩
        obtain rfl := Option.some.inj (hcall.symm.trans hcall')
        exact (ih hinv).mp hrest
      · exact fun hrest => ⟨w', hcall, hinv.valid, (ih hinv).mpr hrest⟩
    | some ok =>
      by_cases hout : c.fn = .cstr → out = false
      · rw [call_prints h hc hout]
        constructor
        · intro ⟨w', hw', hvalid, hrest⟩
          obtain rfl := Option.some.inj hw'
          have hholder := (valid_prints h).mp hvalid
          exact ⟨hholder, hout, (ih (inv_prints h hholder)).mp hrest⟩
        · intro ⟨hholder, _, hrest⟩
          exact ⟨_, rfl, (valid_prints h).mpr hholder, (ih (inv_prints h hholder)).mpr hrest⟩
      · -- it is a second buffer of `cjson_cstr`
        obtain ⟨hfn, hset⟩ := Classical.not_imp.mp hout
        have htwice : w.call nodes c = none := by
          cases c with
          | print json mem => cases hfn
          | sval cjson key mem => cases hfn
          | cstr json mem =>
            rw [Bool.not_eq_false, h.out, Option.isSome_iff_exists] at hset
            obtain ⟨b, hs⟩ := hset
            rw [World.call, Call.run, cjsonCstr_twice h hs]
            rfl
        rw [htwice]
        exact iff_of_false (fun ⟨_, hnone, _⟩ => by cases hnone) fun htidy => hout htidy.2.1

/-- The buffers are freed once, and a pointer is valid up to the next call of its function,
exactly if the calls are tidy. -/
theorem sound_iff (nodes : Nodes P) (cs : List (Call P)) :
    Sound nodes World.start cs ↔ Tidy nodes none false cs := sound_from cs inv_start

end

/-- A tree of one node, an object. -/
def oneObject : Nodes Unit := ⟨fun _ _ => some (), fun _ => true, fun _ => false, fun _ => false⟩

/-- `cjson_cstr` twice frees its first buffer twice; `cjson_cstr` behind `cjson_print` frees the
string that the other has returned. -/
theorem printed_freed :
    ¬ (∀ cs, Sound oneObject World.start cs) ∧
      World.start.call oneObject (.cstr (some ()) true) ≠ none ∧
      ¬ Sound oneObject World.start [.cstr (some ()) true, .cstr (some ()) true] ∧
      ¬ Sound oneObject World.start [.print (some ()) true, .cstr (some ()) true] := by
  have htwice : ¬ Sound oneObject World.start [.cstr (some ()) true, .cstr (some ()) true] := by
    intro ⟨w, hw, _, w', hw', _⟩
    obtain rfl := Option.some.inj hw
    cases hw'
  refine ⟨fun h => htwice (h _), by simp [World.call, Call.run, cjsonCstr, cjsonPrint,
    World.start, Statics.free, Statics.printed], htwice, ?_⟩
  intro ⟨w, hw, _, w', hw', hvalid, _⟩
  obtain rfl := Option.some.inj hw
  obtain rfl := Option.some.inj hw'
  exact hvalid .print 0 rfl List.mem_cons_self

end Libhp.Json
