import Mathlib.Data.List.AList
import Mathlib.Data.List.Sort
import Mathlib.Tactic

/-!
# The Redis commands behind publish and subscribe

The key space and the commands that `hp_pub.c` sends, with the scripts `sup.lua` and
`sub.lua`. A topic is a sorted set of messages, scored by their ids; a session is a hash
from topics to acknowledged ids. Both live in one key space, and a command on a key of
the wrong type fails.
-/
namespace Libhp.Pub

/-- Topics, session ids and payloads. -/
abbrev Text := List UInt8

scoped instance : LawfulBEq Text := inferInstance

/-- A message of a topic: its payload and its id. -/
abbrev Message := Text × Nat

abbrev ZSet := AList fun _ : Text => Nat

abbrev Hash := AList fun _ : Text => Nat

inductive Value where
  | zset (z : ZSet)
  | hash (h : Hash)

abbrev Db := AList fun _ : Text => Value

/-- The order of a sorted set: by score, then by member. -/
def ranksBelow (m n : Message) : Prop := m.2 < n.2 ∨ m.2 = n.2 ∧ m.1 ≤ n.1

instance : DecidableRel ranksBelow := fun m n =>
  inferInstanceAs (Decidable (m.2 < n.2 ∨ m.2 = n.2 ∧ m.1 ≤ n.1))

def ZSet.ranked (z : ZSet) : List Message :=
  (z.entries.map fun e => (e.1, e.2)).insertionSort ranksBelow

/-- `ZRANGEBYSCORE key lo +inf WITHSCORES` -/
def ZSet.rangeByScore (z : ZSet) (lo : Nat) : List Message := z.ranked.filter fun m => lo ≤ m.2

/-- The score of `ZREVRANGE key 0 0 WITHSCORES`, and 0 for an empty set. -/
def ZSet.topScore (z : ZSet) : Nat := (z.ranked.getLast?.map fun m => m.2).getD 0

theorem ZSet.mem_ranked {z : ZSet} {m : Message} : m ∈ z.ranked ↔ z.lookup m.1 = some m.2 := by
  obtain ⟨text, id⟩ := m
  simp only [ranked, List.mem_insertionSort, List.mem_map, Prod.mk.injEq]
  constructor
  · rintro ⟨⟨t, i⟩, hmem, rfl, rfl⟩
    exact AList.mem_lookup_iff.mpr hmem
  · intro h
    exact ⟨⟨text, id⟩, AList.mem_lookup_iff.mp h, rfl, rfl⟩

theorem ZSet.mem_rangeByScore {z : ZSet} {lo : Nat} {m : Message} :
    m ∈ z.rangeByScore lo ↔ z.lookup m.1 = some m.2 ∧ lo ≤ m.2 := by
  simp only [rangeByScore, List.mem_filter, mem_ranked, decide_eq_true_eq]

instance : Std.Total ranksBelow where
  total m n := by
    rcases lt_trichotomy m.2 n.2 with h | h | h
    · exact .inl (.inl h)
    · exact (List.le_total m.1 n.1).imp (fun hle => .inr ⟨h, hle⟩) (fun hle => .inr ⟨h.symm, hle⟩)
    · exact .inr (.inl h)

instance : IsTrans Message ranksBelow where
  trans m n o hmn hno := by
    rcases hmn with h | ⟨h, hle⟩
    · rcases hno with h' | ⟨h', -⟩
      · exact .inl (h.trans h')
      · exact .inl (h' ▸ h)
    · rcases hno with h' | ⟨h', hle'⟩
      · exact .inl (h ▸ h')
      · exact .inr ⟨h.trans h', List.le_trans hle hle'⟩

/-- No message of a topic is above its top score. -/
theorem ZSet.le_topScore {z : ZSet} {m : Message} (h : z.lookup m.1 = some m.2) :
    m.2 ≤ z.topScore := by
  have hmem : m ∈ z.ranked := mem_ranked.mpr h
  have hsorted : z.ranked.Pairwise ranksBelow := List.pairwise_insertionSort ranksBelow _
  obtain ⟨init, last, hsplit⟩ : ∃ init last, z.ranked = init ++ [last] :=
    ⟨_, _, (List.dropLast_append_getLast (List.ne_nil_of_mem hmem)).symm⟩
  have htop : z.topScore = last.2 := by simp only [topScore, hsplit, List.getLast?_concat,
    Option.map_some, Option.getD_some]
  rw [htop]
  rw [hsplit] at hmem hsorted
  rcases List.mem_append.mp hmem with hin | hlast
  · have hrank := (List.pairwise_append.mp hsorted).2.2 m hin last (List.mem_singleton_self _)
    rcases hrank with hlt | ⟨heq, -⟩
    · exact hlt.le
    · exact heq.le
  · rw [List.mem_singleton.mp hlast]

/-- The key as a sorted set; `none` is the error on a key of another type. -/
def Db.zset (db : Db) (key : Text) : Option ZSet :=
  match db.lookup key with
  | none => some ∅
  | some (.zset z) => some z
  | some (.hash _) => none

def Db.hash (db : Db) (key : Text) : Option Hash :=
  match db.lookup key with
  | none => some ∅
  | some (.hash h) => some h
  | some (.zset _) => none

/-- What a session holds for a topic. -/
def Db.field (db : Db) (sid topic : Text) : Option Nat :=
  (db.hash sid).bind fun h => h.lookup topic

/-- The message is stored under the topic. -/
def Db.Stored (db : Db) (topic : Text) (m : Message) : Prop :=
  ∃ z, db.zset topic = some z ∧ z.lookup m.1 = some m.2

def Db.zadd (db : Db) (topic : Text) (id : Nat) (msg : Text) : Option Db :=
  (db.zset topic).map fun z => db.insert topic (.zset (z.insert msg id))

def Db.hset (db : Db) (sid topic : Text) (id : Nat) : Option Db :=
  (db.hash sid).map fun h => db.insert sid (.hash (h.insert topic id))

def Db.hsetnx (db : Db) (sid topic : Text) (id : Nat) : Option Db :=
  (db.hash sid).map fun h =>
    if topic ∈ h then db else db.insert sid (.hash (h.insert topic id))

/-- `HDEL`; a hash without fields is no key. -/
def Db.hdel (db : Db) (sid topic : Text) : Option Db :=
  (db.hash sid).map fun h =>
    if (h.erase topic).entries = [] then db.erase sid else db.insert sid (.hash (h.erase topic))

/-- Only the hash at `sid` differs. -/
structure HashEdit (sid : Text) (db db' : Db) : Prop where
  before : (db.hash sid).isSome
  after : (db'.hash sid).isSome
  others : ∀ key, key ≠ sid → db'.lookup key = db.lookup key

theorem HashEdit.refl {sid : Text} {db : Db} (h : (db.hash sid).isSome) : HashEdit sid db db :=
  ⟨h, h, fun _ _ => rfl⟩

theorem HashEdit.trans {sid : Text} {db db' db'' : Db} (h : HashEdit sid db db')
    (h' : HashEdit sid db' db'') : HashEdit sid db db'' :=
  ⟨h.before, h'.after, fun key hne => (h'.others key hne).trans (h.others key hne)⟩

theorem Db.not_stored_of_hash {db : Db} {key : Text} (h : (db.hash key).isSome) (m : Message) :
    ¬ db.Stored key m := by
  intro ⟨z, hz, hm⟩
  unfold hash at h
  unfold zset at hz
  split at h
  · next hnone =>
    rw [hnone] at hz
    cases hz
    cases hm
  · next hsome =>
    rw [hsome] at hz
    cases hz
  · cases h

theorem HashEdit.stored {sid : Text} {db db' : Db} (h : HashEdit sid db db') (topic : Text)
    (m : Message) : db'.Stored topic m ↔ db.Stored topic m := by
  by_cases heq : topic = sid
  · subst heq
    exact iff_of_false (Db.not_stored_of_hash h.after m) (Db.not_stored_of_hash h.before m)
  · simp only [Db.Stored, Db.zset, h.others topic heq]

theorem HashEdit.field_ne {sid : Text} {db db' : Db} (h : HashEdit sid db db') {sid' : Text}
    (hne : sid' ≠ sid) (topic : Text) : db'.field sid' topic = db.field sid' topic := by
  simp only [Db.field, Db.hash, h.others sid' hne]

@[simp]
theorem Db.hash_insert_hash (db : Db) (sid : Text) (h : Hash) :
    Db.hash (db.insert sid (.hash h)) sid = some h := by
  simp only [hash, AList.lookup_insert]

theorem Db.edit_insert {db : Db} {sid : Text} (h : (db.hash sid).isSome) (fields : Hash) :
    HashEdit sid db (db.insert sid (.hash fields)) :=
  ⟨h, by simp, fun _ hne => AList.lookup_insert_ne hne⟩

theorem Db.hset_spec {db db' : Db} {sid topic : Text} {id : Nat}
    (h : db.hset sid topic id = some db') :
    HashEdit sid db db' ∧ ∀ t, db'.field sid t = if t = topic then some id else db.field sid t := by
  obtain ⟨fields, hfields, rfl⟩ := Option.map_eq_some_iff.mp h
  refine ⟨edit_insert (by rw [hfields]; rfl) _, fun t => ?_⟩
  simp only [field, hash_insert_hash, hfields, Option.bind_some]
  by_cases heq : t = topic
  · rw [if_pos heq, heq, AList.lookup_insert]
  · rw [if_neg heq, AList.lookup_insert_ne heq]

theorem Db.hsetnx_spec {db db' : Db} {sid topic : Text} {id : Nat}
    (h : db.hsetnx sid topic id = some db') :
    HashEdit sid db db' ∧ ∀ t, db'.field sid t =
      if t = topic then some ((db.field sid topic).getD id) else db.field sid t := by
  obtain ⟨fields, hfields, rfl⟩ := Option.map_eq_some_iff.mp h
  have hsome : (db.hash sid).isSome := by rw [hfields]; rfl
  split
  · next hmem =>
    obtain ⟨v, hv⟩ := Option.isSome_iff_exists.mp (AList.lookup_isSome.mpr hmem)
    refine ⟨.refl hsome, fun t => ?_⟩
    simp only [field, hfields, Option.bind_some]
    split
    · next heq => rw [heq, hv, Option.getD_some]
    · rfl
  · next hmem =>
    have hnone := AList.lookup_eq_none.mpr hmem
    refine ⟨edit_insert hsome _, fun t => ?_⟩
    simp only [field, hash_insert_hash, hfields, Option.bind_some, hnone, Option.getD_none]
    by_cases heq : t = topic
    · rw [if_pos heq, heq, AList.lookup_insert]
    · rw [if_neg heq, AList.lookup_insert_ne heq]

theorem Db.hdel_spec {db db' : Db} {sid topic : Text} (h : db.hdel sid topic = some db') :
    HashEdit sid db db' ∧ ∀ t, db'.field sid t = if t = topic then none else db.field sid t := by
  obtain ⟨fields, hfields, rfl⟩ := Option.map_eq_some_iff.mp h
  have hsome : (db.hash sid).isSome := by rw [hfields]; rfl
  have herase : ∀ t, (fields.erase topic).lookup t = if t = topic then none else fields.lookup t := by
    intro t
    by_cases heq : t = topic
    · rw [if_pos heq, heq, AList.lookup_erase]
    · rw [if_neg heq, AList.lookup_erase_ne heq]
  split
  · next hempty =>
    have hgone : Db.hash (db.erase sid) sid = some ∅ := by simp only [hash, AList.lookup_erase]
    refine ⟨⟨hsome, by rw [hgone]; rfl, fun _ hne => AList.lookup_erase_ne hne⟩, fun t => ?_⟩
    have hnil : fields.erase topic = ∅ := AList.ext hempty
    simp only [field, hgone, hfields, Option.bind_some, ← herase, hnil]
  · refine ⟨edit_insert hsome _, fun t => ?_⟩
    simp only [field, hash_insert_hash, hfields, Option.bind_some, herase]

/-- A message is stored, and what was stored stays, up to the old id of its payload. -/
theorem Db.zadd_spec {db db' : Db} {topic msg : Text} {id : Nat}
    (h : db.zadd topic id msg = some db') :
    (∀ sid t, db'.field sid t = db.field sid t) ∧
      ∀ t m, db'.Stored t m ↔
        if t = topic ∧ m.1 = msg then m.2 = id else db.Stored t m := by
  obtain ⟨z, hz, rfl⟩ := Option.map_eq_some_iff.mp h
  refine ⟨fun sid t => ?_, fun t m => ?_⟩
  · by_cases heq : sid = topic
    · subst heq
      have hleft : Db.hash (db.insert sid (.zset (z.insert msg id))) sid = none := by
        simp only [hash, AList.lookup_insert]
      have hright : db.field sid t = none := by
        unfold zset at hz
        simp only [field, hash]
        split at hz
        · next hnone => rw [hnone]; rfl
        · next hsome => rw [hsome]; rfl
        · cases hz
      simp only [field, hleft, Option.bind_none] at hright ⊢
      exact hright.symm
    · simp only [field, hash, AList.lookup_insert_ne heq]
  · by_cases heq : t = topic
    · subst heq
      have hzset : Db.zset (db.insert t (.zset (z.insert msg id))) t = some (z.insert msg id) := by
        simp only [zset, AList.lookup_insert]
      simp only [Stored, hzset, hz, Option.some.injEq, exists_eq_left', true_and]
      by_cases hmsg : m.1 = msg
      · rw [if_pos hmsg, hmsg, AList.lookup_insert, Option.some.injEq]
        exact eq_comm
      · rw [if_neg hmsg, AList.lookup_insert_ne hmsg]
    · rw [if_neg (fun hand => heq hand.1)]
      simp only [Stored, zset, AList.lookup_insert_ne heq]

/-- The first loop of `sup.lua`. The flag is false when a command fails, which ends the
script and keeps what it has done. -/
def supAdd (sid : Text) : List Text → Db → Db × Bool
  | [], db => (db, true)
  | v :: keys, db =>
    match db.zset v with
    | none => (db, false)
    | some z =>
      match db.hsetnx sid v z.topScore with
      | none => (db, false)
      | some db => supAdd sid keys db

/-- The second loop of `sup.lua`, over the fields the session had at the start. -/
def supRemove (sid : Text) (keys : List Text) : List Text → Db → Db × Bool
  | [], db => (db, true)
  | k :: old, db =>
    if k ∈ keys then supRemove sid keys old db
    else
      match db.hdel sid k with
      | none => (db, false)
      | some db => supRemove sid keys old db

/-- `scripts/sup.lua` -/
def supLua (keys : List Text) (sid : Text) (db : Db) : Db × Bool :=
  match db.hash sid with
  | none => (db, false)
  | some s =>
    let (db, ok) := supAdd sid keys db
    if ok then supRemove sid keys s.keys db else (db, false)

/-- `scripts/sub.lua`; a topic whose query fails is left out. -/
def subLua (sid : Text) (db : Db) : Option (List (Text × List Message)) :=
  (db.hash sid).map fun s =>
    s.entries.filterMap fun e => (db.zset e.1).map fun z => (e.1, z.rangeByScore (e.2 + 1))

/-- The value `v` under a topic is the one of before, or the topic is new and `v` is not
below any message stored under it. -/
def Db.KeptOrTop (db : Db) (sid topic : Text) (v : Nat) : Prop :=
  db.field sid topic = some v ∨
    db.field sid topic = none ∧ ∀ m, db.Stored topic m → m.2 ≤ v

theorem supAdd_spec {sid : Text} (keys : List Text) {db : Db} (h : (db.hash sid).isSome) :
    HashEdit sid db (supAdd sid keys db).1 ∧
      ∀ t v, (supAdd sid keys db).1.field sid t = some v → db.KeptOrTop sid t v := by
  induction keys generalizing db with
  | nil => exact ⟨.refl h, fun t v hv => .inl hv⟩
  | cons key keys ih =>
    unfold supAdd
    split
    · exact ⟨.refl h, fun t v hv => .inl hv⟩
    · next z hz =>
      split
      · exact ⟨.refl h, fun t v hv => .inl hv⟩
      · next db₁ hset =>
        obtain ⟨hedit, hfield⟩ := Db.hsetnx_spec hset
        obtain ⟨hrest, hkept⟩ := ih hedit.after
        refine ⟨hedit.trans hrest, fun t v hv => ?_⟩
        rcases hkept t v hv with hold | ⟨hnew, htop⟩
        · rw [hfield] at hold
          split at hold
          · next heq =>
            subst heq
            cases hbefore : db.field sid t with
            | some v' =>
              rw [hbefore] at hold
              exact .inl (hbefore.trans hold)
            | none =>
              rw [hbefore] at hold
              cases hold
              refine .inr ⟨hbefore, fun m ⟨z', hz', hm⟩ => ?_⟩
              rw [hz] at hz'
              cases hz'
              exact ZSet.le_topScore hm
          · exact .inl hold
        · rw [hfield] at hnew
          split at hnew
          · cases hnew
          · exact .inr ⟨hnew, fun m hm => htop m ((hedit.stored t m).mpr hm)⟩

theorem supRemove_spec {sid : Text} (keys old : List Text) {db : Db} (h : (db.hash sid).isSome) :
    HashEdit sid db (supRemove sid keys old db).1 ∧
      ∀ t v, (supRemove sid keys old db).1.field sid t = some v → db.field sid t = some v := by
  induction old generalizing db with
  | nil => exact ⟨.refl h, fun t v hv => hv⟩
  | cons key old ih =>
    unfold supRemove
    split
    · exact ih h
    · split
      · exact ⟨.refl h, fun t v hv => hv⟩
      · next db₁ hdel =>
        obtain ⟨hedit, hfield⟩ := Db.hdel_spec hdel
        obtain ⟨hrest, hkept⟩ := ih hedit.after
        refine ⟨hedit.trans hrest, fun t v hv => ?_⟩
        have hmid := hkept t v hv
        rw [hfield] at hmid
        split at hmid
        · cases hmid
        · exact hmid

/-- `sup.lua` stores no message, and gives a session no value but those it had and those
above every message of the topic. -/
theorem supLua_spec (keys : List Text) (sid : Text) (db : Db) :
    (∀ t m, (supLua keys sid db).1.Stored t m ↔ db.Stored t m) ∧
      ∀ sid' t v, (supLua keys sid db).1.field sid' t = some v → db.KeptOrTop sid' t v := by
  unfold supLua
  split
  · exact ⟨fun t m => Iff.rfl, fun sid' t v hv => .inl hv⟩
  · next s hs =>
    have hsome : (db.hash sid).isSome := by rw [hs]; rfl
    obtain ⟨hadd, hkept⟩ := supAdd_spec keys hsome
    generalize supAdd sid keys db = r at hadd hkept
    obtain ⟨db₁, ok⟩ := r
    have hedit : ∃ db₂, (if ok = true then supRemove sid keys s.keys db₁ else (db₁, false)).1 = db₂ ∧
        HashEdit sid db db₂ ∧ ∀ t v, db₂.field sid t = some v → db.KeptOrTop sid t v := by
      split
      · obtain ⟨hremove, hless⟩ := supRemove_spec keys s.keys hadd.after
        exact ⟨_, rfl, hadd.trans hremove, fun t v hv => hkept t v (hless t v hv)⟩
      · exact ⟨db₁, rfl, hadd, hkept⟩
    obtain ⟨db₂, heq, hedit, hkept⟩ := hedit
    refine ⟨fun t m => ?_, fun sid' t v hv => ?_⟩
    · exact heq ▸ hedit.stored t m
    · by_cases hsid : sid' = sid
      · subst hsid
        exact hkept t v (heq ▸ hv)
      · exact .inl ((hedit.field_ne hsid t).symm.trans (heq ▸ hv))

/-- What `sub.lua` returns: every stored message above the acknowledged id, and no other. -/
theorem mem_subLua {sid : Text} {db : Db} {topic : Text} {m : Message} :
    (∃ found, subLua sid db = some found ∧ ∃ e ∈ found, e.1 = topic ∧ m ∈ e.2) ↔
      ∃ v, db.field sid topic = some v ∧ db.Stored topic m ∧ v < m.2 := by
  constructor
  · intro ⟨found, hfound, e, he, htopic, hm⟩
    obtain ⟨s, hs, rfl⟩ := Option.map_eq_some_iff.mp hfound
    obtain ⟨⟨t, v⟩, hentry, hquery⟩ := List.mem_filterMap.mp he
    obtain ⟨z, hz, rfl⟩ := Option.map_eq_some_iff.mp hquery
    obtain ⟨hlookup, hle⟩ := ZSet.mem_rangeByScore.mp hm
    subst htopic
    refine ⟨v, ?_, ⟨z, hz, hlookup⟩, hle⟩
    rw [Db.field, hs]
    exact AList.mem_lookup_iff.mpr hentry
  · intro ⟨v, hv, ⟨z, hz, hm⟩, hlt⟩
    obtain ⟨s, hs, hlookup⟩ := Option.bind_eq_some_iff.mp hv
    refine ⟨_, by rw [subLua, hs]; rfl, (topic, z.rangeByScore (v + 1)), ?_, rfl, ?_⟩
    · exact List.mem_filterMap.mpr ⟨⟨topic, v⟩, AList.mem_lookup_iff.mp hlookup, by rw [hz]; rfl⟩
    · exact ZSet.mem_rangeByScore.mpr ⟨hm, hlt⟩

inductive Cmd where
  | zadd (topic : Text) (id : Nat) (msg : Text)
  | publish (topic : Text) (id : Nat)
  | evalSup (topics : List Text) (sid : Text)
  | evalSub (sid : Text)
  | hset (sid topic : Text) (id : Nat)
  | hkeys (sid : Text)

inductive Reply where
  | ok
  | error
  | keys (topics : List Text)
  | msgs (found : List (Text × List Message))

/-- What a command does to the keys, and its reply. `PUBLISH` stores nothing. -/
def exec (db : Db) : Cmd → Db × Reply
  | .zadd topic id msg =>
    match db.zadd topic id msg with
    | none => (db, .error)
    | some db => (db, .ok)
  | .publish _ _ => (db, .ok)
  | .evalSup topics sid =>
    match supLua topics sid db with
    | (db, true) => (db, .ok)
    | (db, false) => (db, .error)
  | .evalSub sid =>
    match subLua sid db with
    | none => (db, .error)
    | some found => (db, .msgs found)
  | .hset sid topic id =>
    match db.hset sid topic id with
    | none => (db, .error)
    | some db => (db, .ok)
  | .hkeys sid =>
    match db.hash sid with
    | none => (db, .error)
    | some h => (db, .keys h.keys)

/-- What a command leaves behind: the values of a session stay or move up to the top of
the topic, unless the user sets one. -/
theorem exec_field {db : Db} {cmd : Cmd} {sid topic : Text} {v : Nat}
    (h : (exec db cmd).1.field sid topic = some v) :
    db.KeptOrTop sid topic v ∨ cmd = .hset sid topic v := by
  cases cmd with
  | zadd t id msg =>
    simp only [exec] at h
    split at h
    · exact .inl (.inl h)
    · next hadd => exact .inl (.inl (((Db.zadd_spec hadd).1 sid topic).symm.trans h))
  | publish t id => exact .inl (.inl h)
  | evalSup topics sid' =>
    have hsup := (supLua_spec topics sid' db).2 sid topic v
    simp only [exec] at h
    split at h <;> next heq => exact .inl (hsup (by rw [heq]; exact h))
  | evalSub sid' =>
    simp only [exec] at h
    split at h <;> exact .inl (.inl h)
  | hset sid' t id =>
    simp only [exec] at h
    split at h
    · exact .inl (.inl h)
    · next hset =>
      obtain ⟨hedit, hfield⟩ := Db.hset_spec hset
      by_cases hsid : sid = sid'
      · subst hsid
        rw [hfield] at h
        split at h
        · next heq =>
          cases h
          exact .inr (by rw [heq])
        · exact .inl (.inl h)
      · exact .inl (.inl ((hedit.field_ne hsid topic).symm.trans h))
  | hkeys sid' =>
    simp only [exec] at h
    split at h <;> exact .inl (.inl h)

/-- Only `ZADD` changes what is stored. -/
theorem exec_stored {db : Db} {cmd : Cmd} (h : ∀ topic id msg, cmd ≠ .zadd topic id msg)
    (topic : Text) (m : Message) : (exec db cmd).1.Stored topic m ↔ db.Stored topic m := by
  cases cmd with
  | zadd t id msg => exact absurd rfl (h t id msg)
  | publish t id => rfl
  | evalSup topics sid =>
    have hsup := (supLua_spec topics sid db).1 topic m
    simp only [exec]
    split <;> next heq => rw [heq] at hsup; exact hsup
  | evalSub sid =>
    simp only [exec]
    split <;> rfl
  | hset sid t id =>
    simp only [exec]
    split
    · rfl
    · next hset => exact (Db.hset_spec hset).1.stored topic m
  | hkeys sid =>
    simp only [exec]
    split <;> rfl

/-- `struct timeval` as `gettimeofday` fills it in. -/
structure Timeval where
  sec : Nat
  usec : Nat

/-- The id of a message: milliseconds, the sub-millisecond part cut off. -/
def Timeval.ms (tv : Timeval) : Nat := tv.sec * 1000 + tv.usec / 1000

/-- The commands `hp_pub` sends on its connection. A length that is not positive stands
for the length of the C string. -/
def hpPub (tv : Timeval) (topic msg : Text) (len : Int) : List Cmd :=
  let text := if len ≤ 0 then msg.takeWhile fun b => b ≠ 0 else msg.take len.toNat
  [.zadd topic tv.ms text, .publish topic tv.ms]

end Libhp.Pub
