import SignalFlow.Engine.Event
import SignalFlow.Proofs.Graph.Portable
import SignalFlow.Proofs.Time.Rfc3339

/-!
What events say on the wire. An event that was read has nothing in it that there is no word for, and
what is written of it is read as the same event, with the members of its objects in any order.
-/

namespace SignalFlow

open Document (ofJson)

-- The fields that go along have names of their own, and their values are in order.
structure IndicatorUpdate.Sound (u : IndicatorUpdate) : Prop where
  apart     : ∀ name ∈ ownNames, name ∉ u.fields.keys
  ordered   : u.fields.Ordered
  timestamp : ∀ x ∈ u.timestamp, x.isFinite = true

structure SignalNotice.Sound (n : SignalNotice) : Prop where
  confidence   : n.confidence.isFinite = true
  positionSize : n.positionSize.isFinite = true
  indicators   : ∀ e ∈ n.indicators.entries, e.2.isFinite = true
  timestamp    : n.timestamp.OnClock
  quantity     : n.quantity.isFinite = true
  price        : ∀ x ∈ n.price, x.isFinite = true

namespace Event

def Sound : Event → Prop
  | .indicatorUpdated u => u.Sound
  | .signalGenerated n  => n.Sound

def payload : Event → Json
  | .indicatorUpdated u => u.toJson
  | .signalGenerated n  => n.toJson

-- The value says the topic and the payload of the event, the members of both objects in any order.
inductive WrittenAs (e : Event) : Json → Prop
  | topicFirst {payload : Json} (h : e.payload.Shuffled payload) :
    e.WrittenAs (.obj [("topic", .str e.topic), ("payload", payload)])
  | payloadFirst {payload : Json} (h : e.payload.Shuffled payload) :
    e.WrittenAs (.obj [("payload", payload), ("topic", .str e.topic)])

-- Both what is written of the event and the value of that, which has its members in order, are read
-- as the event, and so is anything else that says the same.
structure Lossless (e : Event) : Prop where
  written : e.WrittenAs e.toJson
  sorted  : ∃ j, (ofJson e.toJson).json? = some j ∧ e.WrittenAs j
  read    : ∀ j, e.WrittenAs j → ofJson? j = some e

end Event

variable {j : Json} {d : Document} {room : Nat}

namespace IndicatorUpdate

variable {u : IndicatorUpdate}

-- The members that an update is written with.
def members (u : IndicatorUpdate) : List (String × Json) :=
  ("symbol", .str u.symbol) :: ("timestamp", .ofOption .ofFloat u.timestamp) :: u.fields.entries

namespace Sound

theorem nodup_members (h : u.Sound) : (u.members.map Prod.fst).Nodup := by
  have symbol := h.apart "symbol" (by decide)
  have timestamp := h.apart "timestamp" (by decide)
  refine List.nodup_cons.mpr ⟨?_, List.nodup_cons.mpr ⟨timestamp, u.fields.nodup_keys⟩⟩
  exact List.not_mem_cons_of_ne_of_not_mem (show "symbol" ≠ "timestamp" by decide) symbol

theorem ordered_members (h : u.Sound) : ∀ m ∈ u.members, m.2.Ordered := by
  have timestamp : (Json.ofOption .ofFloat u.timestamp).Ordered :=
    Json.holds_ofOption .null fun _ => Json.ordered_ofFloat
  exact List.forall_mem_cons.mpr ⟨.str, List.forall_mem_cons.mpr ⟨timestamp, h.ordered⟩⟩

theorem filter_members (h : u.Sound) :
    u.members.filter (fun m => m.1 ∉ ownNames) = u.fields.entries := by
  have hf : ∀ e ∈ u.fields.entries, decide (e.1 ∉ ownNames) = true := fun e he =>
    decide_eq_true fun hn => h.apart _ hn <| List.mem_map_of_mem he
  change u.fields.entries.filter (fun m => m.1 ∉ ownNames) = u.fields.entries
  exact List.filter_eq_self.mpr hf

end Sound

theorem extraMembers_ofMembers {members : List (String × Json)}
    (h : ∀ m ∈ members, m.2.Ordered) :
    extraMembers (Document.ofMembers members) = some (members.filter fun m => m.1 ∉ ownNames) := by
  induction members
  case nil               => rfl
  case cons m members hi =>
    have hl := hi fun m hm => h m (.tail _ hm)
    rw [Document.ofMembers, extraMembers, hl, List.filter_cons]
    by_cases hm : m.1 ∈ ownNames
    case pos => simp [hm]
    case neg => simp [hm, Document.json?_ofJson (h m (.head _))]

theorem ofDocument?_of_shuffled (h : u.Sound) (hj : u.toJson.Shuffled j) :
    ofDocument? (ofJson j) = some u := by
  cases j
  case obj members =>
    have hp : u.members.Perm members := hj
    have ⟨f, hf, hg⟩ := Document.exists_fields? ownNames hp h.nodup_members
    have symbol : f.required "symbol" Document.string? = some u.symbol :=
      Document.required_of_get? (hg _ (.head _) (by decide : "symbol" ∈ ownNames)) rfl
    have timestamp : f.nullable "timestamp" Document.float? = some u.timestamp :=
      Document.nullable_of_get?
        (hg _ (.tail _ <| .head _) (by decide : "timestamp" ∈ ownNames)) rfl
        fun x hx => Document.float?_ofFloat (h.timestamp x hx)
    have extra : extraMembers (Document.ofMembers members) =
        some (members.filter fun m => m.1 ∉ ownNames) :=
      extraMembers_ofMembers fun m hm => h.ordered_members m <| hp.mem_iff.mpr hm
    have fields : Dict.ofList (members.filter fun m => m.1 ∉ ownNames) = u.fields :=
      Dict.ofList_of_perm <| h.filter_members ▸ (hp.filter _).symm
    rw [ofJson] at hf ⊢
    simp only [ofDocument?, bind, hf, Option.bind_some, extra, symbol, timestamp, fields]
  all_goals cases hj

-- What goes along has a name of its own, and it is the value of a member.
theorem extraMembers_spec {members : List (Option String × Document)} {l : List (String × Json)}
    (h : extraMembers members = some l) {e : String × Json} (he : e ∈ l) :
    e.1 ∉ ownNames ∧ ∃ m ∈ members, m.2.json? = some e.2 := by
  induction members generalizing l
  case nil               => cases h; cases he
  case cons m members hi =>
    have ⟨name?, d⟩ := m
    have ⟨name, _, h⟩ := Option.bind_eq_some_iff.mp h
    have ⟨others, ho, h⟩ := Option.bind_eq_some_iff.mp h
    have other (he : e ∈ others) :
        e.1 ∉ ownNames ∧ ∃ m ∈ (name?, d) :: members, m.2.json? = some e.2 :=
      have ⟨hn, m, hm, hj⟩ := hi ho he
      ⟨hn, m, .tail _ hm, hj⟩
    split at h
    case isTrue     => cases h; exact other he
    case isFalse hn =>
      have ⟨j, hj, h⟩ := Option.bind_eq_some_iff.mp h
      cases h
      cases he
      case head    => exact ⟨hn, _, .head _, hj⟩
      case tail he => exact other he

theorem exists_of_ofDocument? (h : ofDocument? d = some u) :
    ∃ members, ∃ f : Document.Fields, d = .obj members ∧
      (∀ e ∈ u.fields.entries, e.1 ∉ ownNames ∧ ∃ m ∈ members, m.2.json? = some e.2) ∧
      f.nullable "timestamp" Document.float? = some u.timestamp := by
  cases d
  case obj members =>
    have ⟨f, _, h⟩ := Option.bind_eq_some_iff.mp h
    have ⟨extra, hx, h⟩ := Option.bind_eq_some_iff.mp h
    have ⟨symbol, _, h⟩ := Option.bind_eq_some_iff.mp h
    have ⟨timestamp, ht, h⟩ := Option.bind_eq_some_iff.mp h
    cases h
    refine ⟨members, f, rfl, fun e he => ?_, ht⟩
    exact extraMembers_spec hx <| Dict.mem_of_mem_entries_ofList he
  all_goals cases h

theorem sound_of_ofDocument? (h : ofDocument? d = some u) : u.Sound := by
  have ⟨_, _, _, own, ht⟩ := exists_of_ofDocument? h
  refine ⟨fun name hn hk => ?apart, fun e he => ?ordered, fun x hx => ?timestamp⟩
  case apart     =>
    have ⟨e, he, hk⟩ := List.mem_map.mp hk
    exact (own e he).left (hk ▸ hn)
  case ordered   =>
    have ⟨_, _, _, hj⟩ := own e he
    exact Document.ordered_of_json? hj
  case timestamp =>
    have ⟨_, hr⟩ := Document.exists_of_nullable ht x hx
    exact Document.isFinite_of_float? hr

theorem within_of_ofDocument? (hw : d.Within (room + 1)) (h : ofDocument? d = some u) :
    u.toJson.Within (room + 1) := by
  have ⟨members, _, hd, own, _⟩ := exists_of_ofDocument? h
  have timestamp : (Json.ofOption .ofFloat u.timestamp).Within room :=
    Json.holds_ofOption .null fun _ => Json.within_ofFloat
  have fields : ∀ e ∈ u.fields.entries, e.2.Within room := by
    intro e he
    have ⟨_, m, hm, hj⟩ := own e he
    cases hd
    cases hw with | obj parts => exact Document.within_of_json? (parts m hm) hj
  exact .obj <| List.forall_mem_cons.mpr ⟨.str, List.forall_mem_cons.mpr ⟨timestamp, fields⟩⟩

end IndicatorUpdate

namespace SignalNotice

variable {n : SignalNotice} {alternative : Document → Option String}

theorem ofDocument?_of_shuffled (h : n.Sound) (ha : ∀ s, alternative (.str s) = some s)
    (hn : alternative .null = none) (hj : n.toJson.Shuffled j) :
    ofDocument? alternative (ofJson j) = some n := by
  cases j
  case obj members =>
    have ⟨f, hf, hg⟩ := Document.exists_fields? fieldNames hj (by simp)
    have get := fun m hm => hg m hm <| List.mem_map_of_mem (f := Prod.fst) hm
    simp only [List.forall_mem_cons] at get
    have ⟨session, strategy, symbol, signalType, confidence, positionSize, riskLevel, indicators,
      timestamp, side, quantity, price, id, node, message, _⟩ := get
    have text {name s : String} (h : f.get? name = some (ofJson (.str s))) :
        f.required name Document.string? = some s := Document.required_of_get? h rfl
    have number {name : String} {x : Float} (hx : x.isFinite = true)
        (h : f.get? name = some (ofJson (.ofFloat x))) :
        f.required name Document.float? = some x :=
      Document.required_of_get? h <| Document.float?_ofFloat hx
    have signalType : f.required "signal_type" (fun d => (alternative d).bind SignalType.ofName?) =
        some n.signalType := by
      refine Document.required_of_get? signalType ?_
      rw [ofJson, ha, Option.bind_some]
      cases n.signalType <;> rfl
    have indicators :
        f.required "indicators" (Document.dict? Document.float?) = some n.indicators :=
      Document.required_of_get? indicators <|
        Document.dict?_ofJson fun e he => Document.float?_ofFloat (h.indicators e he)
    have timestamp : f.required "timestamp" instant? = some n.timestamp := by
      refine Document.required_of_get? timestamp ?_
      rw [ofJson, instant?, Document.string?, Option.bind_some, Rfc3339.read?_write h.timestamp]
    have side : f.nullable "side" (fun d => (alternative d).bind Side.ofName?) = some n.side := by
      refine Document.nullable_of_get? side (by rw [hn, Option.bind_none]) fun s _ => ?_
      rw [ofJson, ha, Option.bind_some]
      cases s <;> rfl
    have price : f.nullable "price" Document.float? = some n.price :=
      Document.nullable_of_get? price rfl fun x hx => Document.float?_ofFloat (h.price x hx)
    have message : f.nullable "message" Document.string? = some n.message :=
      Document.nullable_of_get? message rfl fun _ _ => rfl
    rw [ofDocument?, hf, Option.bind_eq_bind, Option.bind_some, text session, text strategy,
      text symbol, signalType, number h.confidence confidence,
      number h.positionSize positionSize, text riskLevel, indicators, timestamp, side,
      number h.quantity quantity, price, text id, text node, message]
    rfl
  all_goals cases hj

-- What holds of texts, of numbers, of `null` and of the indicators holds of all that is written.
theorem holds_members {motive : Json → Prop} {members : List (String × Json)}
    (hn : n.toJson = .obj members) (text : ∀ s, motive (.str s)) (number : ∀ x, motive (.ofFloat x))
    (null : motive .null) (indicators : motive (.ofDict .ofFloat n.indicators)) :
    ∀ m ∈ members, motive m.2 := by
  cases hn
  have side : motive (.ofOption (fun s => .str s.name) n.side) :=
    Json.holds_ofOption null fun s => text s.name
  have price : motive (.ofOption .ofFloat n.price) := Json.holds_ofOption null number
  have message : motive (.ofOption .str n.message) := Json.holds_ofOption null text
  simp only [List.forall_mem_cons, List.not_mem_nil, false_implies, implies_true, and_true]
  exact ⟨text _, text _, text _, text _, number _, number _, text _, indicators, text _, side,
    number _, price, text _, text _, message⟩

theorem ordered_members {members : List (String × Json)} (hn : n.toJson = .obj members) :
    ∀ m ∈ members, m.2.Ordered := by
  refine holds_members hn (fun _ => .str) (fun _ => Json.ordered_ofFloat) .null ?_
  exact .obj (List.pairwise_map.mpr n.indicators.sorted) <|
    List.forall_mem_map.mpr fun _ _ => Json.ordered_ofFloat

theorem within_toJson (n : SignalNotice) : n.toJson.Within (room + 2) := by
  refine .obj <| holds_members rfl (fun _ => .str) (fun _ => Json.within_ofFloat) .null ?_
  exact .obj <| List.forall_mem_map.mpr fun _ _ => Json.within_ofFloat

theorem sound_of_ofDocument? (h : ofDocument? alternative d = some n) : n.Sound := by
  have number {f : Document.Fields} {name : String} {x : Float}
      (h : f.required name Document.float? = some x) : x.isFinite = true :=
    have ⟨_, _, hx⟩ := Option.bind_eq_some_iff.mp h
    Document.isFinite_of_float? hx
  have ⟨f, hf, h⟩ := Option.bind_eq_some_iff.mp h
  have ⟨session, _, h⟩ := Option.bind_eq_some_iff.mp h
  have ⟨strategy, _, h⟩ := Option.bind_eq_some_iff.mp h
  have ⟨symbol, _, h⟩ := Option.bind_eq_some_iff.mp h
  have ⟨signalType, _, h⟩ := Option.bind_eq_some_iff.mp h
  have ⟨confidence, hc, h⟩ := Option.bind_eq_some_iff.mp h
  have ⟨positionSize, hs, h⟩ := Option.bind_eq_some_iff.mp h
  have ⟨riskLevel, _, h⟩ := Option.bind_eq_some_iff.mp h
  have ⟨indicators, hi, h⟩ := Option.bind_eq_some_iff.mp h
  have ⟨timestamp, ht, h⟩ := Option.bind_eq_some_iff.mp h
  have ⟨side, _, h⟩ := Option.bind_eq_some_iff.mp h
  have ⟨quantity, hq, h⟩ := Option.bind_eq_some_iff.mp h
  have ⟨price, hp, h⟩ := Option.bind_eq_some_iff.mp h
  have ⟨id, _, h⟩ := Option.bind_eq_some_iff.mp h
  have ⟨node, _, h⟩ := Option.bind_eq_some_iff.mp h
  have ⟨message, _, h⟩ := Option.bind_eq_some_iff.mp h
  cases h
  refine ⟨number hc, number hs, ?indicators, ?timestamp, number hq, ?price⟩
  case indicators =>
    intro e he
    have ⟨d, _, hd⟩ := Option.bind_eq_some_iff.mp hi
    have ⟨_, _, m, _, hr⟩ := Document.exists_member_of_dict? hd he
    exact Document.isFinite_of_float? hr
  case timestamp =>
    have ⟨d, _, hd⟩ := Option.bind_eq_some_iff.mp ht
    have ⟨text, _, hr⟩ := Option.bind_eq_some_iff.mp hd
    exact Rfc3339.onClock_of_read? hr
  case price =>
    intro x hx
    have ⟨_, hr⟩ := Document.exists_of_nullable hp x hx
    exact Document.isFinite_of_float? hr

end SignalNotice

namespace Event

variable {e : Event}

theorem ofParts?_of_shuffled (h : e.Sound) {alternative : Document → Option String}
    (ha : ∀ s, alternative (.str s) = some s) (hn : alternative .null = none)
    (hj : e.payload.Shuffled j) : ofParts? alternative (.str e.topic) (ofJson j) = some e := by
  cases e
  case indicatorUpdated u =>
    have hu := IndicatorUpdate.ofDocument?_of_shuffled h hj
    exact congrArg (Option.map indicatorUpdated) hu
  case signalGenerated n =>
    have hs := SignalNotice.ofDocument?_of_shuffled h ha hn hj
    exact congrArg (Option.map signalGenerated) hs

theorem ofJson?_of_writtenAs (h : e.Sound) (hj : e.WrittenAs j) : ofJson? j = some e := by
  cases hj
  case topicFirst payload hj => exact ofParts?_of_shuffled h (fun _ => rfl) rfl hj
  case payloadFirst payload hj =>
    have ⟨v, hv⟩ := Document.exists_json?_ofJson payload
    have hp : ofParts? Document.nameAside? (.str e.topic) (ofJson payload) = some e :=
      ofParts?_of_shuffled h (fun _ => rfl) rfl hj
    exact Option.bind_eq_some_iff.mpr ⟨v, hv, hp⟩

theorem toJson_eq (e : Event) :
    e.toJson = .obj [("topic", .str e.topic), ("payload", e.payload)] := by
  cases e <;> rfl

theorem exists_shuffled_payload (h : e.Sound) :
    ∃ j, (ofJson e.payload).json? = some j ∧ e.payload.Shuffled j := by
  cases e
  case indicatorUpdated u => exact Document.exists_shuffled h.nodup_members h.ordered_members
  case signalGenerated n  => exact Document.exists_shuffled (by simp) (n.ordered_members rfl)

-- In the value of what is written the payload comes before the topic.
theorem exists_writtenAs_json? (h : e.Sound) :
    ∃ j, (ofJson e.toJson).json? = some j ∧ e.WrittenAs j := by
  have ⟨payload, hv, hs⟩ := exists_shuffled_payload h
  have hm : Document.members? [(some "topic", .str e.topic), (some "payload", ofJson e.payload)] =
      some [("topic", .str e.topic), ("payload", payload)] := by
    simp [Document.members?, Document.json?, hv]
  have hd : (Dict.ofList [("topic", .str e.topic), ("payload", payload)]).entries =
      [("payload", payload), ("topic", .str e.topic)] := by
    have hlt : "payload" < "topic" := by decide
    simp [Dict.ofList, Dict.insert, Dict.insertEntry, Dict.empty, hlt]
  refine ⟨_, ?_, .payloadFirst hs⟩
  rw [toJson_eq, ofJson, Document.ofMembers_eq]
  change (Document.members? [(some "topic", .str e.topic), (some "payload", ofJson e.payload)]).map
    (fun l => Json.obj (Dict.ofList l).entries) = _
  rw [hm, Option.map_some, hd]

theorem writtenAs_toJson : e.WrittenAs e.toJson := by
  rw [toJson_eq]
  refine .topicFirst ?_
  cases e <;> exact List.Perm.refl _

theorem lossless_of_sound (h : e.Sound) : e.Lossless :=
  ⟨writtenAs_toJson, exists_writtenAs_json? h, fun _ => ofJson?_of_writtenAs h⟩

-- Whatever the form of an event, its payload is a part of the document.
theorem exists_of_ofDocument? (h : ofDocument? d = some e) :
    ∃ f alternative topic payload, d.fields? ["topic", "payload"] = some f ∧
      f.get? "payload" = some payload ∧ ofParts? alternative topic payload = some e := by
  have ⟨f, hf, h⟩ := Option.bind_eq_some_iff.mp h
  split at h
  case h_1 topic payload hg =>
    exact ⟨f, _, topic, payload, hf, by rw [Document.Fields.get?, hg]; rfl, h⟩
  case h_2 payload topic hg =>
    have ⟨_, _, h⟩ := Option.bind_eq_some_iff.mp h
    exact ⟨f, _, topic, payload, hf, by rw [Document.Fields.get?, hg]; rfl, h⟩
  case h_3 => cases h

theorem ofParts?_eq_some {alternative : Document → Option String} {topic payload : Document}
    (h : ofParts? alternative topic payload = some e) :
    (∃ u, e = .indicatorUpdated u ∧ IndicatorUpdate.ofDocument? payload = some u) ∨
      (∃ n, e = .signalGenerated n ∧ SignalNotice.ofDocument? alternative payload = some n) := by
  have ⟨name, _, h⟩ := Option.bind_eq_some_iff.mp h
  split at h
  case isTrue  =>
    have ⟨u, hu, he⟩ := Option.map_eq_some_iff.mp h
    exact .inl ⟨u, he.symm, hu⟩
  case isFalse =>
    split at h
    case isFalse => cases h
    case isTrue  =>
      have ⟨n, hn, he⟩ := Option.map_eq_some_iff.mp h
      exact .inr ⟨n, he.symm, hn⟩

theorem sound_of_ofParts? {alternative : Document → Option String} {topic payload : Document}
    (h : ofParts? alternative topic payload = some e) : e.Sound := by
  rcases ofParts?_eq_some h with ⟨u, rfl, hu⟩ | ⟨n, rfl, hn⟩
  · exact IndicatorUpdate.sound_of_ofDocument? hu
  · exact SignalNotice.sound_of_ofDocument? hn

theorem within_of_ofParts? {alternative : Document → Option String} {topic payload : Document}
    (hw : payload.Within (room + 2)) (h : ofParts? alternative topic payload = some e) :
    e.payload.Within (room + 2) := by
  rcases ofParts?_eq_some h with ⟨u, rfl, hu⟩ | ⟨n, rfl, _⟩
  · exact IndicatorUpdate.within_of_ofDocument? hw hu
  · exact n.within_toJson

theorem WrittenAs.within (h : e.WrittenAs j) (hw : e.payload.Within room) :
    j.Within (room + 1) := by
  cases h
  case topicFirst h   => exact .obj <| by simp [Json.Within.str, h.within hw]
  case payloadFirst h => exact .obj <| by simp [Json.Within.str, h.within hw]

-- Nothing is lost of an event on the wire. Whatever document an event was read from, what is written
-- of it is read as the same event. So is the text of that, if the event was read from a text and the
-- floats in it are read as they are written.
theorem lossless :
    (∀ d e, ofDocument? d = some e → e.Sound ∧ e.Lossless) ∧
    (∀ e : Event, e.Sound → e.Lossless) ∧
    (∀ t e, parse? t = some e → ∀ j, e.WrittenAs j → (∀ x ∈ j.floats, x.ReadsBack) →
      parse? j.compact = some e ∧ parse? j.pretty = some e) := by
  refine ⟨fun d e h => ?document, fun e h => lossless_of_sound h, fun t e h j hj hr => ?text⟩
  case document =>
    have ⟨_, _, _, _, _, _, h⟩ := exists_of_ofDocument? h
    exact ⟨sound_of_ofParts? h, lossless_of_sound <| sound_of_ofParts? h⟩
  case text =>
    have ⟨d, hd, he⟩ := Option.bind_eq_some_iff.mp h
    have ⟨f, _, _, payload, hf, hg, h⟩ := exists_of_ofDocument? he
    have hw := within_of_ofParts? (Document.within_of_get? (Document.within_of_parse? hd) hf hg) h
    have read := (lossless_of_sound <| sound_of_ofParts? h).read j hj
    constructor
    case left  => rw [parse?, Document.parse?_compact (hj.within hw) hr]; exact read
    case right => rw [parse?, Document.parse?_pretty (hj.within hw) hr]; exact read

-- A signal in a leap second, by clocks five hours behind. The event and its payload are lists.
def noticeText : String :=
  "[\"signal.generated\", [\"s\", \"t\", \"B\", \"buy\", 1, 0.5, \"low\", \x7b\"rsi\": 28.5\x7d,
    \"2016-12-31T18:59:60.25-05:00\", null, 2, null, \"i\", \"n\", null]]"

def notice : SignalNotice where
  session      := "s"
  strategy     := "t"
  symbol       := "B"
  signalType   := .buy
  confidence   := 1
  positionSize := 0.5
  riskLevel    := "low"
  indicators   := .ofList [("rsi", 28.5)]
  timestamp    := ⟨1483228799, 1250000000⟩
  side         := none
  quantity     := 2
  price        := none
  id           := "i"
  node         := "n"
  message      := none

theorem parse?_noticeText : parse? noticeText = some (.signalGenerated notice) := by
  have tokens : Json.tokens? noticeText.toList = some
      [.openList, .str (some "signal.generated"), .comma,
        .openList, .str (some "s"), .comma, .str (some "t"), .comma, .str (some "B"), .comma,
          .str (some "buy"), .comma, .num (Number.ofInt? 1), .comma, .num (Number.ofFloat? 0.5),
          .comma, .str (some "low"), .comma,
          .openObject, .str (some "rsi"), .colon, .num (Number.ofFloat? 28.5), .closeObject, .comma,
          .str (some "2016-12-31T18:59:60.25-05:00"), .comma, .null, .comma,
          .num (Number.ofInt? 2), .comma, .null, .comma, .str (some "i"), .comma, .str (some "n"),
          .comma, .null, .closeList, .closeList] := by
    decide +kernel
  rw [parse?, Document.parse?, tokens]
  rfl

theorem lossless_notice :
    parse? noticeText = some (.signalGenerated notice) ∧ Sound (.signalGenerated notice) ∧
    ofJson? (toJson (.signalGenerated notice)) = some (.signalGenerated notice) ∧
    (∀ x ∈ (toJson (.signalGenerated notice)).floats, x.ReadsBack) ∧
    parse? (toJson (.signalGenerated notice)).compact = some (.signalGenerated notice) := by
  have floats : ∀ x ∈ (toJson (.signalGenerated notice)).floats, x.ReadsBack := by decide +kernel
  have ⟨_, _, he⟩ := Option.bind_eq_some_iff.mp parse?_noticeText
  have ⟨sound, _⟩ := lossless.left _ _ he
  have kept := lossless.right.left _ sound
  have text := lossless.right.right _ _ parse?_noticeText _ kept.written floats
  exact ⟨parse?_noticeText, sound, kept.read _ kept.written, floats, text.left⟩

end Event

end SignalFlow
