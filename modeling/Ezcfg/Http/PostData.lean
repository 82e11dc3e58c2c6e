import Ezcfg.Foundation.ByteArea
import Ezcfg.Foundation.Terminated
import Ezcfg.Foundation.TextCuts
import Ezcfg.Http.Handle
import Ezcfg.Lists.NvList

/-!
# Parsing form data

`ezcfg_http_parse_post_data` cuts the body at ampersands and equals signs, hands the name and
the value between the cuts to the list, and puts the bytes back. Every way out of the loop
leaves the body as it was. What an insertion is granted depends on the place of its field, so
that each of them can fail for want of memory.
-/

namespace Ezcfg.Http

open Foundation Foundation.TextCuts Ezcfg.Lists

/-- The mark between fields. -/
abbrev ampersand : UInt8 := 0x26

/-- The mark between the name and the value of a field. -/
abbrev equalsSign : UInt8 := 0x3d

/-- `strchr` on the string at a place of the body: the place of the byte. -/
def strchrAt (body : List UInt8) (p : Nat) (mark : UInt8) : Option (Option Nat) := do
  let text ← ByteArea.stringAt body p
  return (cutAt mark text).map fun cut => p + cut.1.length

/-- The part of the loop that both branches share: the field at `p` is cut at its equals sign,
inserted and put together again. There is no answer of the list without an equals sign. -/
def insertField (grants : Nat → Grants) (body : List UInt8) (p : Nat) (list : NvLinkedList) :
    Option (Option Int × List UInt8 × NvLinkedList) := do
  match ← strchrAt body p equalsSign with
  | none => return (none, body, list)
  | some eq =>
    let body ← ByteArea.write body eq [0]
    let name ← CString.ofBytes (← ByteArea.stringAt body p)
    let value ← CString.ofBytes (← ByteArea.stringAt body (eq + 1))
    let (ret, list) ← nvLinkedListInsert (grants p) list name value
    let body ← ByteArea.write body eq [equalsSign]
    return (some ret, body, list)

/-- The loop of `ezcfg_http_parse_post_data`, with a bound on its turns. -/
def postDataLoop (grants : Nat → Grants) : Nat → List UInt8 → Nat → NvLinkedList →
    Option (Bool × List UInt8 × NvLinkedList)
  | 0, _, _, _ => none
  | turns + 1, body, p, list => do
    match ← strchrAt body p ampersand with
    | some fieldEnd =>
      let body ← ByteArea.write body fieldEnd [0]
      let (ret, body, list) ← insertField grants body p list
      let body ← ByteArea.write body fieldEnd [ampersand]
      if ret = some retOk then postDataLoop grants turns body (fieldEnd + 1) list
      else return (false, body, list)
    | none =>
      let (ret, body, list) ← insertField grants body p list
      return (decide (ret = some retOk), body, list)

/-- `ezcfg_http_parse_post_data`: the result, the body with its terminator and the list. -/
def httpParsePostData (grants : Nat → Grants) (http : Handle) (list : NvLinkedList) :
    Option (Bool × Option (List UInt8) × NvLinkedList) := do
  match http.messageBody with
  | none => return (true, none, list)
  | some body =>
    let (ok, body, list) ← postDataLoop grants (body.length + 1) (terminated body) 0 list
    return (ok, some body, list)

/-- The fields of a body. -/
def fieldsOf (body : Option CString) : List (List UInt8) :=
  body.elim [] fun body => body.bytes.splitOn ampersand

/-- The list holds every name of the fields once, with the value of its last field. -/
def HoldsLast (fields : List (List UInt8)) (list : NvLinkedList) : Prop :=
  ∃ contents, SettingsHold contents list ∧ ∀ name value : CString, (name, value) ∈ contents ↔
    ∃ front field back, fields = front ++ field :: back ∧
      cutAt equalsSign field = some (name.bytes, value.bytes) ∧
      ∀ later ∈ back, (cutAt equalsSign later).map (·.1) ≠ some name.bytes

/-! ## One field -/

/-- All memory is granted. -/
def allGranted : Grants := ⟨true, true, true⟩

section Field

variable {front field behind : List UInt8}

/-- A byte is searched in the string between a place and its terminator. -/
theorem strchrAt_between (nonul : (0 : UInt8) ∉ field) (mark : UInt8) :
    strchrAt (front ++ field ++ 0 :: behind) front.length mark =
      some ((cutAt mark field).map fun cut => front.length + cut.1.length) := by
  rw [strchrAt, ByteArea.stringAt_between front field behind nonul]
  rfl

/-- A field without an equals sign is not inserted. -/
theorem insertField_absent (grants : Nat → Grants) (list : NvLinkedList)
    (nonul : (0 : UInt8) ∉ field) (absent : equalsSign ∉ field) :
    insertField grants (front ++ field ++ 0 :: behind) front.length list =
      some (none, front ++ field ++ 0 :: behind, list) := by
  rw [insertField, strchrAt_between nonul, cutAt_absent absent]
  rfl

/-- A field with an equals sign is inserted, and the body is as it was. -/
theorem insertField_present (grants : Nat → Grants) {list : NvLinkedList}
    {contents : List Setting} (nonul : (0 : UInt8) ∉ field) (short : field.length + 1 < 2 ^ 31)
    (present : equalsSign ∈ field) (holds : SettingsHold contents list) :
    ∃ name value after, cutAt equalsSign field = some (name.bytes, value.bytes) ∧
      insertField grants (front ++ field ++ 0 :: behind) front.length list =
        some (some (putSetting (grants front.length) (KeyedList.insert sameName) (name, value)
          contents).1, front ++ field ++ 0 :: behind, after) ∧
      SettingsHold (putSetting (grants front.length) (KeyedList.insert sameName) (name, value)
        contents).2 after := by
  obtain ⟨nameBytes, valueBytes, rfl, cut⟩ := cutAt_mem present
  have searched := @strchrAt_between front _ behind nonul equalsSign
  rw [cut] at searched
  rw [List.mem_append, List.mem_cons, not_or, not_or] at nonul
  rw [List.length_append, List.length_cons] at short
  obtain ⟨nameNonul, -, valueNonul⟩ := nonul
  let name : CString := ⟨nameBytes, nameNonul, by omega⟩
  let value : CString := ⟨valueBytes, valueNonul, by omega⟩
  obtain ⟨after, done, still⟩ := nvInsert_holds holds name value (grants front.length)
  refine ⟨name, value, after, cut, ?_, still⟩
  have place : (front ++ nameBytes).length = front.length + nameBytes.length := List.length_append
  have whole : front ++ (nameBytes ++ equalsSign :: valueBytes) ++ 0 :: behind =
      (front ++ nameBytes) ++ [equalsSign] ++ (valueBytes ++ 0 :: behind) := by
    simp
  have cutText : (front ++ nameBytes) ++ [0] ++ (valueBytes ++ 0 :: behind) =
      front ++ nameBytes ++ 0 :: (valueBytes ++ 0 :: behind) := by
    simp
  have behindCut : (front ++ nameBytes) ++ [0] ++ (valueBytes ++ 0 :: behind) =
      (front ++ nameBytes ++ [0]) ++ valueBytes ++ 0 :: behind := by
    simp
  have written := ByteArea.write_between (front ++ nameBytes) [equalsSign] [0]
    (valueBytes ++ 0 :: behind) rfl
  have restored := ByteArea.write_between (front ++ nameBytes) [0] [equalsSign]
    (valueBytes ++ 0 :: behind) rfl
  have readName := ByteArea.stringAt_between front nameBytes (valueBytes ++ 0 :: behind) nameNonul
  have readValue :=
    ByteArea.stringAt_between (front ++ nameBytes ++ [0]) valueBytes behind valueNonul
  have next : (front ++ nameBytes ++ [0]).length = front.length + nameBytes.length + 1 := by
    rw [List.length_append, place]
    rfl
  have isName := CString.ofBytes_bytes name
  have isValue := CString.ofBytes_bytes value
  rw [place] at written restored
  rw [← cutText] at readName
  rw [← behindCut, next] at readValue
  rw [insertField, searched, whole]
  show (ByteArea.write _ (front.length + nameBytes.length) [0]).bind _ = _
  rw [written, Option.bind_some]
  show (ByteArea.stringAt _ front.length).bind _ = _
  rw [readName, Option.bind_some]
  show (CString.ofBytes name.bytes).bind _ = _
  rw [isName, Option.bind_some]
  show (ByteArea.stringAt _ (front.length + nameBytes.length + 1)).bind _ = _
  rw [readValue, Option.bind_some]
  show (CString.ofBytes value.bytes).bind _ = _
  rw [isValue, Option.bind_some]
  show (nvLinkedListInsert (grants front.length) list name value).bind _ = _
  rw [done, Option.bind_some]
  show (ByteArea.write _ (front.length + nameBytes.length) [equalsSign]).bind _ = _
  rw [restored, Option.bind_some]
  rfl

end Field

/-! ## All fields -/

/-- An insertion that is granted succeeds. -/
theorem putSetting_granted (add : Setting → List Setting → List Setting) (setting : Setting)
    (contents : List Setting) :
    putSetting allGranted add setting contents = (retOk, add setting contents) := by
  rw [putSetting]
  cases contents.any (sameName · setting) with
  | false => rfl
  | true => rfl

/-- What the loop comes to on a text: the settings of its fields are added one after the other,
up to a field without an equals sign. -/
structure ParsesFields (contents : List Setting) (fields : List (List UInt8)) (ok : Bool)
    (list : NvLinkedList) : Prop where
  complete : ok = true ↔ ∀ field ∈ fields, equalsSign ∈ field
  holds : ok = true → ∃ settings : List Setting,
    fields.map (cutAt equalsSign) =
      settings.map (fun setting => some (setting.1.bytes, setting.2.bytes)) ∧
    SettingsHold (settings.foldl (fun contents setting =>
      KeyedList.insert sameName setting contents) contents) list

/-- A field without an equals sign refuses the body. -/
theorem parsesFields_refused (contents : List Setting) {fields : List (List UInt8)}
    {field : List UInt8} (member : field ∈ fields) (absent : equalsSign ∉ field)
    (list : NvLinkedList) : ParsesFields contents fields false list := by
  constructor
  · constructor
    · intro impossible
      cases impossible
    · intro all
      exact absurd (all field member) absent
  · intro impossible
    cases impossible

/-- A field is parsed in front of the others. -/
theorem ParsesFields.cons {contents : List Setting} {fields : List (List UInt8)} {ok : Bool}
    {list : NvLinkedList} {setting : Setting}
    (parsed : ParsesFields (KeyedList.insert sameName setting contents) fields ok list)
    {field : List UInt8} (present : equalsSign ∈ field)
    (cut : cutAt equalsSign field = some (setting.1.bytes, setting.2.bytes)) :
    ParsesFields contents (field :: fields) ok list := by
  constructor
  · rw [parsed.complete, List.forall_mem_cons]
    constructor
    · intro all
      exact ⟨present, all⟩
    · intro all
      exact all.2
  · intro isOk
    obtain ⟨settings, same, holds⟩ := parsed.holds isOk
    refine ⟨setting :: settings, ?_, holds⟩
    rw [List.map_cons, List.map_cons, cut, same]

/-- No fields are left. -/
theorem parsesFields_nil {contents : List Setting} {list : NvLinkedList}
    (holds : SettingsHold contents list) : ParsesFields contents [] true list := by
  constructor
  · exact iff_of_true rfl (by simp)
  · intro _
    exact ⟨[], rfl, holds⟩

/-- A text without an ampersand is one field. -/
theorem splitOn_single {text : List UInt8} (single : ampersand ∉ text) :
    text.splitOn ampersand = [text] := by
  rw [List.splitOn_eq_splitOnP]
  apply List.splitOnP_eq_singleton
  intro byte member
  rw [beq_eq_false_iff_ne]
  rintro rfl
  exact single member

/-- A field stands in front of the first ampersand. -/
theorem splitOn_cons {field : List UInt8} (single : ampersand ∉ field) (rest : List UInt8) :
    (field ++ ampersand :: rest).splitOn ampersand = field :: rest.splitOn ampersand := by
  have first := splitOn_single single
  have cut := List.splitOnP_append_cons (p := (· == ampersand)) field rest
    (beq_self_eq_true ampersand)
  rw [List.splitOn_eq_splitOnP] at first ⊢
  rw [cut, first]
  rfl

/-- The turn of the last field. -/
theorem postDataLoop_last {grants : Nat → Grants} (turns : Nat) {text front : List UInt8}
    {list after : NvLinkedList} {ret : Option Int} (nonul : (0 : UInt8) ∉ text)
    (single : ampersand ∉ text)
    (inserted : insertField grants (front ++ text ++ [0]) front.length list =
      some (ret, front ++ text ++ [0], after)) :
    postDataLoop grants (turns + 1) (front ++ text ++ [0]) front.length list =
      some (decide (ret = some retOk), front ++ text ++ [0], after) := by
  have searched := @strchrAt_between front text [] nonul ampersand
  rw [cutAt_absent single, Option.map_none] at searched
  rw [postDataLoop, bind_of_some searched]
  exact bind_of_some inserted

/-- The turn of a field with others behind it. The terminator stands in the place of the
ampersand while the field is inserted. -/
theorem postDataLoop_field {grants : Nat → Grants} (turns : Nat) {field rest front : List UInt8}
    {list between : NvLinkedList} {ret : Option Int}
    (nonul : (0 : UInt8) ∉ field ++ ampersand :: rest) (single : ampersand ∉ field)
    (inserted : insertField grants (front ++ field ++ 0 :: (rest ++ [0])) front.length list =
      some (ret, front ++ field ++ 0 :: (rest ++ [0]), between)) :
    postDataLoop grants (turns + 1) (front ++ (field ++ ampersand :: rest) ++ [0]) front.length
        list =
      if ret = some retOk then
        postDataLoop grants turns ((front ++ field ++ [ampersand]) ++ rest ++ [0])
          (front ++ field ++ [ampersand]).length between
      else some (false, front ++ (field ++ ampersand :: rest) ++ [0], between) := by
  have searched := @strchrAt_between front _ [] nonul ampersand
  rw [cutAt_mark ampersand field rest single] at searched
  have place : (front ++ field).length = front.length + field.length := List.length_append
  have next : (front ++ field ++ [ampersand]).length = front.length + field.length + 1 := by
    rw [List.length_append, place]
    rfl
  have whole : front ++ (field ++ ampersand :: rest) ++ [0] =
      (front ++ field) ++ [ampersand] ++ (rest ++ [0]) := by
    simp
  have cutText : (front ++ field) ++ [0] ++ (rest ++ [0]) =
      front ++ field ++ 0 :: (rest ++ [0]) := by
    simp
  have written := ByteArea.write_between (front ++ field) [ampersand] [0] (rest ++ [0]) rfl
  have restored := ByteArea.write_between (front ++ field) [0] [ampersand] (rest ++ [0]) rfl
  rw [place, cutText] at written restored
  rw [next, List.append_assoc _ rest]
  rw [whole] at searched ⊢
  rw [postDataLoop, bind_of_some searched]
  show ((ByteArea.write _ (front.length + field.length) [0]).bind _) = _
  rw [written, Option.bind_some]
  show ((insertField _ _ _ _).bind _) = _
  rw [inserted, Option.bind_some]
  show ((ByteArea.write _ (front.length + field.length) [ampersand]).bind _) = _
  rw [restored, Option.bind_some]
  rfl

/-- The loop gives back the body as it was, and with all memory granted it parses the fields of
what is left of it. The induction is on the turns, each of which takes a field. -/
theorem postDataLoop_parses (grants : Nat → Grants) (turns : Nat) {text : List UInt8}
    (front : List UInt8) {list : NvLinkedList} {contents : List Setting}
    (nonul : (0 : UInt8) ∉ text) (short : text.length + 1 < 2 ^ 31)
    (holds : SettingsHold contents list) (enough : text.length < turns) :
    ∃ ok after, postDataLoop grants turns (front ++ text ++ [0]) front.length list =
        some (ok, front ++ text ++ [0], after) ∧
      ((∀ p, grants p = allGranted) →
        ParsesFields contents (text.splitOn ampersand) ok after) := by
  induction turns generalizing text front list contents with
  | zero => cases enough
  | succ turns inductionHypothesis =>
    by_cases last : ampersand ∈ text
    · obtain ⟨field, rest, rfl, single⟩ := List.eq_append_cons_of_mem last
      have fieldNonul : (0 : UInt8) ∉ field := by
        intro member
        exact nonul (List.mem_append_left _ member)
      have restNonul : (0 : UInt8) ∉ rest := by
        intro member
        exact nonul (List.mem_append_right _ (List.mem_cons_of_mem _ member))
      rw [List.length_append, List.length_cons] at short enough
      rw [splitOn_cons single]
      by_cases present : equalsSign ∈ field
      · obtain ⟨name, value, between, cut, done, still⟩ := @insertField_present front field
          (rest ++ [0]) grants list contents fieldNonul (by omega) present holds
        rw [postDataLoop_field turns nonul single done]
        by_cases added : (putSetting (grants front.length) (KeyedList.insert sameName)
            (name, value) contents).1 = retOk
        · obtain ⟨ok, after, run, parsed⟩ := @inductionHypothesis rest
            (front ++ field ++ [ampersand]) between _ restNonul (by omega) still (by omega)
          refine ⟨ok, after, ?_, ?_⟩
          · rw [added, if_pos rfl, run]
            simp
          · intro granted
            have later := parsed granted
            rw [granted, putSetting_granted] at later
            exact later.cons present cut
        · refine ⟨false, between, ?_, ?_⟩
          · rw [if_neg fun same => added (Option.some.inj same)]
          · intro granted
            rw [granted, putSetting_granted] at added
            exact absurd rfl added
      · have passed := @insertField_absent front field (rest ++ [0]) grants list fieldNonul present
        rw [postDataLoop_field turns nonul single passed]
        refine ⟨false, list, rfl, ?_⟩
        intro granted
        exact parsesFields_refused contents List.mem_cons_self present list
    · rw [splitOn_single last]
      by_cases present : equalsSign ∈ text
      · obtain ⟨name, value, after, cut, done, still⟩ :=
          @insertField_present front text [] grants list contents nonul short present holds
        refine ⟨_, after, postDataLoop_last turns nonul last done, ?_⟩
        intro granted
        rw [granted, putSetting_granted] at still ⊢
        exact (parsesFields_nil still).cons present cut
      · have passed := @insertField_absent front text [] grants list nonul present
        refine ⟨_, list, postDataLoop_last turns nonul last passed, ?_⟩
        intro granted
        exact parsesFields_refused contents List.mem_cons_self present list

/-- The list of the settings that are added one after the other holds the last ones. -/
theorem holdsLast_of {fields : List (List UInt8)} {settings : List Setting} {list : NvLinkedList}
    (same : fields.map (cutAt equalsSign) =
      settings.map (fun setting => some (setting.1.bytes, setting.2.bytes)))
    (holds : SettingsHold (settings.foldl (fun contents setting =>
      KeyedList.insert sameName setting contents) []) list) : HoldsLast fields list := by
  refine ⟨_, holds, ?_⟩
  intro name value
  have distinct : KeyedList.Distinct sameName ([] : List Setting) := List.Pairwise.nil
  have differs : ∀ setting : Setting, ¬ sameName (name, value) setting ↔
      setting.1.bytes ≠ name.bytes := by
    intro setting
    rw [sameName, decide_eq_true_eq, CString.ext_iff]
    exact not_congr eq_comm
  rw [distinct.mem_foldl_insert sameName_equivalence]
  constructor
  · rintro (⟨front, back, rfl, last⟩ | ⟨none, -⟩)
    · rw [List.map_append, List.map_cons] at same
      obtain ⟨before, others, rfl, -, behind⟩ := List.map_eq_append_iff.mp same
      obtain ⟨field, after, rfl, cut, rest⟩ := List.map_eq_cons_iff.mp behind
      refine ⟨before, field, after, rfl, cut, ?_⟩
      intro later member
      have inside : cutAt equalsSign later ∈
          back.map fun setting => some (setting.1.bytes, setting.2.bytes) :=
        rest ▸ List.mem_map_of_mem member
      obtain ⟨setting, isLater, is⟩ := List.mem_map.mp inside
      rw [← is]
      intro named
      exact (differs setting).mp (last setting isLater) (Option.some.inj named)
    · cases none
  · rintro ⟨before, field, after, rfl, cut, last⟩
    rw [List.map_append, List.map_cons, cut] at same
    obtain ⟨front, others, rfl, -, behind⟩ := List.map_eq_append_iff.mp same.symm
    obtain ⟨setting, back, rfl, is, rest⟩ := List.map_eq_cons_iff.mp behind
    left
    refine ⟨front, back, ?_, ?_⟩
    · injection is with is
      injection is with isName isValue
      rw [show setting = (name, value) by
        exact Prod.ext (CString.ext isName) (CString.ext isValue)]
    · intro other member
      rw [differs]
      intro named
      have inside : some (other.1.bytes, other.2.bytes) ∈ after.map (cutAt equalsSign) :=
        rest ▸ List.mem_map_of_mem (f := fun setting : Setting =>
          some (setting.1.bytes, setting.2.bytes)) member
      obtain ⟨later, isLater, is'⟩ := List.mem_map.mp inside
      apply last later isLater
      rw [is', Option.map_some, named]

/-- Form data are parsed field by field, and the body stays as it was whatever memory is
granted. -/
theorem httpParsePostData_parses (http : Handle) (body : Option CString) (grants : Nat → Grants) :
    ∃ ok after list, httpParsePostData grants { http with messageBody := body.map (·.bytes) }
        nvLinkedListNew = some (ok, after, list) ∧
      after = body.map (terminated ·.bytes) ∧
      ((∀ p, grants p = allGranted) →
        (ok = true ↔ ∀ field ∈ fieldsOf body, equalsSign ∈ field) ∧
        (ok = true → HoldsLast (fieldsOf body) list)) := by
  cases body with
  | none =>
    refine ⟨true, none, nvLinkedListNew, rfl, rfl, ?_⟩
    intro _
    have parsed := parsesFields_nil settingsHold_new
    obtain ⟨settings, same, holds⟩ := parsed.holds rfl
    exact ⟨parsed.complete, fun _ => holdsLast_of same holds⟩
  | some body =>
    obtain ⟨ok, after, run, parsed⟩ := @postDataLoop_parses grants (body.bytes.length + 1)
      body.bytes [] nvLinkedListNew [] body.nonul body.short settingsHold_new (Nat.lt_succ_self _)
    refine ⟨ok, _, after, bind_of_some run, rfl, ?_⟩
    intro granted
    have result := parsed granted
    refine ⟨result.complete, ?_⟩
    intro isOk
    obtain ⟨settings, same, holds⟩ := result.holds isOk
    exact holdsLast_of same holds

end Ezcfg.Http
