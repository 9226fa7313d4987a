import Libhp.Lib.Run
import Libhp.Lib.Text

/-!
# Subscriptions

`hp_mqtt_sub` keeps the topics of the last call and sends no request if a call names the
same ones. The client library accepts a request or rejects it, and an accepted one can
still fail, which is told to a callback that calls `hp_mqtt_sub` again.
-/
namespace Libhp.Mqtt
open Text (toLower)

abbrev Text := List UInt8

/-- A topic with its qos. -/
abbrev Pair := Text × Int

def XHMDM_SUB_ING : Int := 4
def XHMDM_SUB_OK : Int := 8

structure HpMqtt where
  state : Int
  topics : List Text
  qoses : List Int
  deriving Repr, DecidableEq

def hpStrcasecmp (a b : Text) : Int := if a.map toLower = b.map toLower then 0 else 1

/-- `0` if the lists are of one length and every text of the second is in the first. -/
def cvectorCmp (vec1 vec2 : List Text) : Int :=
  if vec1.length ≠ vec2.length then (if vec2.length > vec1.length then 1 else -1)
  else if vec2.all (fun key => vec1.any fun val => hpStrcasecmp key val = 0) then 0 else -1

def clampQos (qos : Int) : Int := if qos ≥ 0 ∧ qos ≤ 2 then qos else 2

/-- What is sent: as many of the qoses as there are topics. -/
def HpMqtt.request (cli : HpMqtt) : List Pair := cli.topics.zip cli.qoses

/-- `accepts` is what `MQTTAsync_subscribeMany` returns. -/
def hpMqttDoSub (accepts : Bool) (cli : HpMqtt) : Int × HpMqtt :=
  if accepts then (0, { cli with state := XHMDM_SUB_ING }) else (-1, cli)

/-- The return value, the client after the call, and the request if one was sent. -/
def hpMqttSub (accepts : Bool) (topics : List (Option Text)) (qos : List Int) (cli : HpMqtt) :
    Int × HpMqtt × Option (List Pair) :=
  if topics.any Option.isNone then (-2, cli, none)
  else
    let names := topics.filterMap id
    if cvectorCmp cli.topics names = 0 then (0, cli, none)
    else
      let cli := { cli with topics := names, qoses := cli.qoses ++ qos.map clampQos }
      let (rc, cli') := hpMqttDoSub accepts cli
      (rc, cli', some cli.request)

/-- What has become of a request. -/
inductive Status where
  | rejected
  | inFlight
  | failed
  | done
  deriving Repr, DecidableEq

structure Request where
  pairs : List Pair
  status : Status
  deriving Repr, DecidableEq

/-- A call that has returned: what it asked for, with the qoses clamped, what it returned,
and the last request that stood accepted then. -/
structure Call where
  requested : List Pair
  ret : Int
  accepted : Option (List Pair)
  deriving Repr, DecidableEq

structure World where
  cli : HpMqtt
  requests : List Request
  calls : List Call
  deriving Repr, DecidableEq

/-- The library has accepted the request and has not reported that it failed. -/
def Request.stands (r : Request) : Bool := r.status = .inFlight || r.status = .done

def lastAccepted (requests : List Request) : Option (List Pair) :=
  (requests.reverse.find? Request.stands).map Request.pairs

def doCall (accepts : Bool) (topics : List (Option Text)) (qos : List Int) (w : World) : World :=
  let (ret, cli, sent) := hpMqttSub accepts topics qos w.cli
  let requests := w.requests ++
    (sent.map fun pairs => ⟨pairs, if accepts then .inFlight else .rejected⟩).toList
  { cli := cli
    requests := requests
    calls := w.calls ++
      [⟨(topics.filterMap id).zip (qos.map clampQos), ret, lastAccepted requests⟩] }

inductive Act where
  | sub (topics : List (Option Text)) (qos : List Int) (accepts : Bool)
  | onSubscribe (k : Nat)
  | onSubscribeFailure (k : Nat) (accepts : Bool)
  deriving Repr, DecidableEq

/-- A call of the user, or the report of the library on a request in flight. -/
def mqttStep (w : World) : Act → Option World
  | .sub topics qos accepts =>
    if topics.length = qos.length then some (doCall accepts topics qos w) else none
  | .onSubscribe k =>
    match w.requests[k]? with
    | some r =>
      if r.status = .inFlight then
        some { w with
          cli := { w.cli with state := XHMDM_SUB_OK }
          requests := w.requests.set k { r with status := .done } }
      else none
    | none => none
  | .onSubscribeFailure k accepts =>
    match w.requests[k]? with
    | some r =>
      if r.status = .inFlight then
        some (doCall accepts (w.cli.topics.map some) (w.cli.qoses.take w.cli.topics.length)
          { w with requests := w.requests.set k { r with status := .failed } })
      else none
    | none => none

/-- `hp_mqtt_init` -/
def mqttStart : World := ⟨⟨0, [], []⟩, [], []⟩

/-- The same topics, each with the same qos. -/
def SamePairs (p q : List Pair) : Prop := p ⊆ q ∧ q ⊆ p

instance (p q : List Pair) : Decidable (SamePairs p q) := inferInstanceAs (Decidable (_ ∧ _))

/-- A call returns `0` only if the last request accepted is for what it asks for. -/
def Call.Lawful (c : Call) : Prop :=
  c.ret = 0 → ∃ p, c.accepted = some p ∧ SamePairs p c.requested

/-- The request sent last was accepted, and has not failed. -/
def Standing (requests : List Request) : Prop := ∃ r ∈ requests.getLast?, r.stands = true

instance (requests : List Request) : Decidable (Standing requests) :=
  match h : requests.getLast? with
  | some r => decidable_of_iff (r.stands = true) (by simp [Standing, h])
  | none => isFalse (by simp [Standing, h])

/-- A call finds the topics of a standing request, with the same qoses, or else the qoses
kept from earlier calls do not hide its own. -/
def SubOk (w : World) (topics : List (Option Text)) (qos : List Int) (accepts : Bool) : Prop :=
  topics.any Option.isNone = false →
    if cvectorCmp w.cli.topics (topics.filterMap id) = 0 then
      Standing w.requests ∧
        SamePairs w.cli.request ((topics.filterMap id).zip (qos.map clampQos))
    else accepts = true →
      SamePairs ((topics.filterMap id).zip (w.cli.qoses ++ qos.map clampQos))
        ((topics.filterMap id).zip (qos.map clampQos))

/-- The condition on a step: as above for a call, and no report of a failure after which
the request sent last does not stand. -/
def StepOk (w : World) : Act → Prop
  | .sub topics qos accepts => SubOk w topics qos accepts
  | .onSubscribe _ => True
  | .onSubscribeFailure k _ =>
    k + 1 ≠ w.requests.length ∧ Standing w.requests

instance (w : World) (topics : List (Option Text)) (qos : List Int) (accepts : Bool) :
    Decidable (SubOk w topics qos accepts) :=
  inferInstanceAs (Decidable (_ → ite _ (_ ∧ _) (_ → _)))

instance (w : World) : (a : Act) → Decidable (StepOk w a)
  | .sub topics qos accepts => inferInstanceAs (Decidable (SubOk w topics qos accepts))
  | .onSubscribe _ => isTrue trivial
  | .onSubscribeFailure _ _ => inferInstanceAs (Decidable (_ ∧ _))

/-- A client remembers what it sent last, and the calls so far were lawful. -/
structure World.Inv (w : World) : Prop where
  sent : ∀ r ∈ w.requests.getLast?, r.pairs = w.cli.request
  clamped : ∀ q ∈ w.cli.qoses, clampQos q = q
  enough : w.cli.topics.length ≤ w.cli.qoses.length
  lawful : ∀ c ∈ w.calls, c.Lawful

section
variable {w w' : World} {topics : List (Option Text)} {qos : List Int} {accepts : Bool}

theorem clampQos_clampQos (q : Int) : clampQos (clampQos q) = clampQos q := by
  unfold clampQos
  split_ifs <;> omega

theorem cvectorCmp_self (names : List Text) : cvectorCmp names names = 0 := by
  unfold cvectorCmp
  rw [if_neg (fun h => h rfl), if_pos]
  refine List.all_eq_true.mpr fun key hkey => List.any_eq_true.mpr ⟨key, hkey, ?_⟩
  simp [hpStrcasecmp]

theorem lastAccepted_standing {requests : List Request} {r : Request}
    (hlast : requests.getLast? = some r) (hr : r.stands = true) :
    lastAccepted requests = some r.pairs := by
  obtain ⟨front, rfl⟩ := List.getLast?_eq_some_iff.mp hlast
  unfold lastAccepted
  rw [List.reverse_append, List.reverse_singleton, List.singleton_append,
    List.find?_cons_of_pos hr]
  rfl

/-- What a call does: it is refused, finds its topics, or sends a request. -/
theorem hpMqttSub_cases (accepts : Bool) (topics : List (Option Text)) (qos : List Int)
    (cli : HpMqtt) :
    (topics.any Option.isNone = true ∧ hpMqttSub accepts topics qos cli = (-2, cli, none)) ∨
    (topics.any Option.isNone = false ∧ cvectorCmp cli.topics (topics.filterMap id) = 0 ∧
      hpMqttSub accepts topics qos cli = (0, cli, none)) ∨
    (topics.any Option.isNone = false ∧ cvectorCmp cli.topics (topics.filterMap id) ≠ 0 ∧
      ∃ state, hpMqttSub accepts topics qos cli =
        (if accepts then 0 else -1,
          ⟨state, topics.filterMap id, cli.qoses ++ qos.map clampQos⟩,
          some ((topics.filterMap id).zip (cli.qoses ++ qos.map clampQos)))) := by
  unfold hpMqttSub
  cases hnull : topics.any Option.isNone with
  | true => exact Or.inl ⟨rfl, rfl⟩
  | false =>
    apply Or.inr
    simp only [Bool.false_eq_true, ↓reduceIte]
    by_cases hcmp : cvectorCmp cli.topics (topics.filterMap id) = 0
    · rw [if_pos hcmp]
      exact Or.inl ⟨trivial, hcmp, rfl⟩
    · rw [if_neg hcmp]
      refine Or.inr ⟨trivial, hcmp, ?_⟩
      cases accepts with
      | true => exact ⟨_, rfl⟩
      | false => exact ⟨_, rfl⟩

/-- A list of topics without `NULL` is as long as its names. -/
theorem length_names (h : topics.any Option.isNone = false) :
    (topics.filterMap id).length = topics.length := by
  induction topics with
  | nil => rfl
  | cons t topics ih =>
    rw [List.any_cons, Bool.or_eq_false_iff] at h
    cases t with
    | none => cases h.1
    | some name => exact congrArg Nat.succ (ih h.2)

/-- A call that sends nothing keeps the invariant if it is lawful. -/
theorem World.Inv.silent (h : w.Inv) {ret : Int} {requested : List Pair}
    (hlaw : Call.Lawful ⟨requested, ret, lastAccepted w.requests⟩) :
    World.Inv ⟨w.cli, w.requests, w.calls ++ [⟨requested, ret, lastAccepted w.requests⟩]⟩ := by
  refine ⟨h.sent, h.clamped, h.enough, fun c hc => ?_⟩
  rcases List.mem_append.mp hc with hc | hc
  · exact h.lawful c hc
  · rw [List.mem_singleton.mp hc]
    exact hlaw

theorem World.Inv.doCall (h : w.Inv) (hlen : topics.length = qos.length)
    (hok : SubOk w topics qos accepts) : (doCall accepts topics qos w).Inv := by
  unfold Mqtt.doCall
  rcases hpMqttSub_cases accepts topics qos w.cli with ⟨-, hsub⟩ | ⟨hnull, hcmp, hsub⟩ |
    ⟨hnull, hcmp, state, hsub⟩
  · rw [hsub]
    simp only [Option.map_none, Option.toList_none, List.append_nil]
    exact h.silent fun hret => absurd hret (show ¬ (-2 : Int) = 0 by decide)
  · obtain ⟨⟨r, hlast, hr⟩, hsame⟩ := (if_pos hcmp).mp (hok hnull)
    rw [hsub]
    simp only [Option.map_none, Option.toList_none, List.append_nil]
    refine h.silent fun _ => ⟨r.pairs, lastAccepted_standing hlast hr, ?_⟩
    rw [h.sent r hlast]
    exact hsame
  · have hqos := (if_neg hcmp).mp (hok hnull)
    rw [hsub]
    simp only [Option.map_some, Option.toList_some]
    refine ⟨fun r hr => ?_, fun q hq => ?_, ?_, fun c hc => ?_⟩
    · rw [List.getLast?_concat] at hr
      cases hr
      rfl
    · rcases List.mem_append.mp hq with hq | hq
      · exact h.clamped q hq
      · obtain ⟨q', -, rfl⟩ := List.mem_map.mp hq
        exact clampQos_clampQos q'
    · show (topics.filterMap id).length ≤ (w.cli.qoses ++ qos.map clampQos).length
      rw [length_names hnull, List.length_append, List.length_map]
      omega
    · rcases List.mem_append.mp hc with hc | hc
      · exact h.lawful c hc
      · rw [List.mem_singleton.mp hc]
        cases accepts with
        | false => exact fun hret => absurd hret (show ¬ (-1 : Int) = 0 by decide)
        | true =>
          refine fun _ => ⟨_, lastAccepted_standing (List.getLast?_concat ..) rfl, ?_⟩
          exact hqos rfl

/-- What a report changes is the fate of a request, not what it was for. -/
theorem World.Inv.report (h : w.Inv) {k : Nat} {r : Request} (hk : w.requests[k]? = some r)
    (status : Status) {state : Int} :
    World.Inv ⟨{ w.cli with state := state }, w.requests.set k { r with status := status },
      w.calls⟩ := by
  refine ⟨fun r' hr' => ?_, h.clamped, h.enough, h.lawful⟩
  change (w.requests.set k _).getLast? = some r' at hr'
  rw [List.getLast?_eq_getElem?, List.length_set, List.getElem?_set] at hr'
  split at hr'
  · next hlast =>
    obtain ⟨-, hr'⟩ := (Option.ite_none_right_eq_some ..).mp hr'
    obtain rfl := Option.some.inj hr'
    apply h.sent r
    rw [List.getLast?_eq_getElem?, ← hlast]
    exact hk
  · apply h.sent r'
    rw [List.getLast?_eq_getElem?]
    exact hr'

/-- The client's own topics are those of its last request, with the same qoses. -/
theorem World.Inv.request_again (h : w.Inv) :
    ((w.cli.topics.map some).filterMap id).zip
      ((w.cli.qoses.take w.cli.topics.length).map clampQos) = w.cli.request := by
  have hnames : (w.cli.topics.map some).filterMap id = w.cli.topics := by simp
  have hqoses : (w.cli.qoses.take w.cli.topics.length).map clampQos =
      w.cli.qoses.take w.cli.topics.length :=
    (List.map_congr_left fun q hq => h.clamped q (List.mem_of_mem_take hq)).trans
      (List.map_id' _)
  rw [hnames, hqoses]
  have hzip := @List.zip_eq_zip_take_min _ _ w.cli.topics w.cli.qoses
  rw [Nat.min_eq_left h.enough, List.take_length] at hzip
  exact hzip.symm

theorem mqttStep_inv (h : w.Inv) {a : Act} (hstep : mqttStep w a = some w') (hok : StepOk w a) :
    w'.Inv := by
  cases a with
  | sub topics qos accepts =>
    simp only [mqttStep] at hstep
    split at hstep
    · next hlen =>
      cases hstep
      exact h.doCall hlen hok
    · cases hstep
  | onSubscribe k =>
    simp only [mqttStep] at hstep
    cases hk : w.requests[k]? with
    | none => simp [hk] at hstep
    | some r =>
      rw [hk] at hstep
      simp only at hstep
      split at hstep
      · cases hstep
        exact h.report hk .done
      · cases hstep
  | onSubscribeFailure k accepts =>
    simp only [mqttStep] at hstep
    cases hk : w.requests[k]? with
    | none => simp [hk] at hstep
    | some r =>
      rw [hk] at hstep
      simp only at hstep
      split at hstep
      · cases hstep
        obtain ⟨hne, r', hlast, hr'⟩ := hok
        have hpos : 0 < w.requests.length :=
          List.length_pos_iff.mpr fun hnil => by
            rw [hnil] at hlast
            cases hlast
        refine (h.report hk .failed).doCall ?_ fun _ => ?_
        · rw [List.length_map, List.length_take, Nat.min_eq_left h.enough]
        · have hcmp : cvectorCmp w.cli.topics ((w.cli.topics.map some).filterMap id) = 0 := by
            have hnames : (w.cli.topics.map some).filterMap id = w.cli.topics := by simp
            rw [hnames]
            exact cvectorCmp_self _
          refine (if_pos hcmp).mpr ⟨⟨r', ?_, hr'⟩, ?_⟩
          · show (w.requests.set k _).getLast? = some r'
            rw [List.getLast?_eq_getElem?, List.length_set, List.getElem?_set_ne (by omega),
              ← List.getLast?_eq_getElem?]
            exact hlast
          · rw [h.request_again]
            exact ⟨fun x hx => hx, fun x hx => hx⟩
      · cases hstep

theorem mqttStart_inv : mqttStart.Inv :=
  { sent := fun _ h => nomatch h
    clamped := fun _ h => nomatch h
    enough := Nat.le_refl _
    lawful := fun _ h => nomatch h }

/-- In a run whose steps meet the condition every call that returns `0` asks for what the
last accepted request is for. -/
theorem calls_lawful (w : World) (h : Run.Along mqttStep StepOk mqttStart w) :
    ∀ c ∈ w.calls, c.Lawful :=
  (h.invariant mqttStart_inv fun _ _ _ hi hstep hok => mqttStep_inv hi hstep hok).lawful

theorem calls_lawful_again : ∃ w, Run.Along mqttStep StepOk mqttStart w ∧
    w.calls.length = 2 ∧ ∀ c ∈ w.calls, c.Lawful := by
  have hex : ∃ w, Run.Along mqttStep StepOk mqttStart w ∧ w.calls.length = 2 :=
    Run.along_any (fun w a => decide (StepOk w a))
      [.sub [some [97], some [98]] [1, 7] true, .sub [some [98], some [97]] [2, 1] true]
      (fun _ _ h => of_decide_eq_true h) (fun w => w.calls.length = 2) (by decide +kernel)
  obtain ⟨w, hrun, hlen⟩ := hex
  exact ⟨w, hrun, hlen, calls_lawful w hrun⟩

/-- After a rejected request the same call returns `0` and sends nothing; so does the
failure callback of a request. -/
theorem calls_not_lawful :
    (∃ w, mqttStep mqttStart (.sub [some [97]] [1] false) = some w ∧
      ∃ w', mqttStep w (.sub [some [97]] [1] true) = some w' ∧
        w'.requests.length = 1 ∧ ∃ c ∈ w'.calls, ¬ c.Lawful) ∧
    (∃ w, mqttStep mqttStart (.sub [some [97]] [1] true) = some w ∧
      ∃ w', mqttStep w (.onSubscribeFailure 0 true) = some w' ∧
        w'.requests.length = 1 ∧ ∃ c ∈ w'.calls, ¬ c.Lawful) := by
  refine ⟨⟨_, rfl, _, rfl, rfl, ⟨[([97], 1)], 0, none⟩, ?_, fun h => ?_⟩,
    ⟨_, rfl, _, rfl, rfl, ⟨[([97], 1)], 0, none⟩, ?_, fun h => ?_⟩⟩
  · decide +kernel
  · obtain ⟨p, hp, -⟩ := h rfl
    cases hp
  · decide +kernel
  · obtain ⟨p, hp, -⟩ := h rfl
    cases hp

end
end Libhp.Mqtt
