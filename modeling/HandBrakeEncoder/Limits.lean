/-
# `Limits` — how much of a request body reaches the application

The middleware refuses a request whose declared length is over the limit, and
counts the bodies of all others while the application receives them: from the
message that crosses the limit on, a disconnect stands in for every part of the
body.  Between `await receive()` and the answer of `limited_receive` nothing is
awaited, so whatever calls the application makes, each takes the server's next
message and counts it before another does.
-/
import HandBrakeEncoder.Py
import Mathlib.Data.List.DropRight

namespace HandBrakeEncoder.Limits

abbrev Bytes := List UInt8

/-- A bytes literal. -/
def bytes (s : String) : Bytes := s.toList.map (fun c => UInt8.ofNat c.toNat)

/-- The connection scope, with the fields the middleware looks at. -/
structure Scope where
  type : PyStr
  /-- `scope.get("headers", [])`. -/
  headers : List (Bytes × Bytes)

/-- A message of the server, or one given to the application. -/
structure Message where
  type : PyStr
  body : Option Bytes
  moreBody : Option Bool
  deriving DecidableEq

def Message.isRequest (message : Message) : Bool := message.type = "http.request".toList

/-- `len(message.get("body", b""))`. -/
def Message.bodyLength (message : Message) : ℕ := (message.body.getD []).length

/-- `{"type": "http.disconnect"}`. -/
def disconnect : Message := { type := "http.disconnect".toList, body := none, moreBody := none }

/-! ## `int` of a header -/

def isByteSpace (b : UInt8) : Bool := b = 32 || (9 ≤ b && b ≤ 13)

def digit? (b : UInt8) : Option ℕ := if 48 ≤ b && b ≤ 57 then some (b.toNat - 48) else none

/-- Digits with single underscores between them. -/
def digits : Bytes → Option (List ℕ)
  | [] => none
  | [b] => (digit? b).map ([·])
  | b :: 95 :: rest => (digit? b).bind (fun d => (digits rest).map (d :: ·))
  | b :: c :: rest => (digit? b).bind (fun d => (digits (c :: rest)).map (d :: ·))

/-- The digits `int` converts at most. -/
def maxStrDigits : ℕ := 4300

/-- `int` of digits without a sign. -/
def natOf (value : Bytes) : Option ℕ :=
  match digits value with
  | some ds => if ds.length ≤ maxStrDigits then some (ds.foldl (fun n d => 10 * n + d) 0) else none
  | none => none

/-- `int(value)`, with nothing for a `ValueError`. -/
def pyInt (value : Bytes) : Option ℤ :=
  match (value.dropWhile isByteSpace).rdropWhile isByteSpace with
  | 45 :: rest => (natOf rest).map (fun n => -(n : ℤ))
  | 43 :: rest => (natOf rest).map (fun n => (n : ℤ))
  | rest => (natOf rest).map (fun n => (n : ℤ))

/-! ## The middleware -/

/-- `_content_length`: the first header of that name decides. -/
def contentLength (scope : Scope) : Option ℤ :=
  match scope.headers.find? (fun header => header.1 = bytes "content-length") with
  | some header => pyInt header.2
  | none => none

/-- One call of `limited_receive` that the server answers with `message`. -/
def limitedReceive (maxBytes : ℤ) (seen : ℕ) (message : Message) : ℕ × Message :=
  if message.isRequest then
    let seen := seen + message.bodyLength
    if maxBytes < seen then (seen, disconnect) else (seen, message)
  else (seen, message)

/-- What the calls of `limited_receive` return, given what the server answers them. -/
def delivered (maxBytes : ℤ) (seen : ℕ) : List Message → List Message
  | [] => []
  | message :: messages =>
      (limitedReceive maxBytes seen message).2 ::
        delivered maxBytes (limitedReceive maxBytes seen message).1 messages

/-- The body of the refusal. -/
def rejectBody (size limit : ℤ) : PyStr :=
  '{' :: ("\"code\": \"request_too_large\", \"reason\": \"Request body is ".toList
    ++ (toString size).toList ++ " bytes; the limit is ".toList ++ (toString limit).toList
    ++ ".\"".toList) ++ ['}']

/-- What a request comes to. -/
inductive Outcome
  /-- The application ran and its calls of `receive` returned these messages. -/
  | served (received : List Message)
  /-- The application was not invoked; the response sent instead. -/
  | rejected (status : ℕ) (body : PyStr)
  deriving DecidableEq

/-- `BodySizeLimitMiddleware.__call__`, over the messages the server answers with. -/
def call (maxBytes : ℤ) (scope : Scope) (messages : List Message) : Outcome :=
  if scope.type ≠ "http".toList || maxBytes ≤ 0 then .served messages
  else
    match contentLength scope with
    | some declared =>
        if maxBytes < declared then .rejected 413 (rejectBody declared maxBytes)
        else .served (delivered maxBytes 0 messages)
    | none => .served (delivered maxBytes 0 messages)

/-! ## Counting -/

/-- The body bytes among messages: those of the `http.request` messages. -/
def bodyBytes : List Message → ℕ
  | [] => 0
  | message :: messages =>
      (if message.isRequest then message.bodyLength else 0) + bodyBytes messages

theorem bodyBytes_append (front back : List Message) :
    bodyBytes (front ++ back) = bodyBytes front + bodyBytes back := by
  induction front with
  | nil =>
      rw [List.nil_append, bodyBytes, Nat.zero_add]
  | cons message front ih =>
      rw [List.cons_append, bodyBytes, bodyBytes, ih, Nat.add_assoc]

theorem bodyBytes_of_no_request {messages : List Message}
    (h : ∀ message ∈ messages, message.isRequest = false) : bodyBytes messages = 0 := by
  induction messages with
  | nil =>
      rfl
  | cons message messages ih =>
      rw [bodyBytes, h message List.mem_cons_self,
        ih (fun other hother => h other (List.mem_cons_of_mem _ hother))]
      rfl

/-- Whatever a call returns, it has counted the body the server sent. -/
theorem limitedReceive_seen (maxBytes : ℤ) (seen : ℕ) (message : Message) :
    (limitedReceive maxBytes seen message).1 = seen + bodyBytes [message] := by
  rw [limitedReceive, bodyBytes, bodyBytes, Nat.add_zero]
  cases message.isRequest with
  | false =>
      rfl
  | true =>
      simp only [if_true]
      split
      · rfl
      · rfl

/-- Under the limit a call returns the server's message. -/
theorem limitedReceive_under {maxBytes : ℤ} {seen : ℕ} {message : Message}
    (h : (seen + bodyBytes [message] : ℕ) ≤ maxBytes) :
    (limitedReceive maxBytes seen message).2 = message := by
  rw [limitedReceive]
  cases hreq : message.isRequest with
  | false =>
      rfl
  | true =>
      rw [bodyBytes, bodyBytes, if_pos hreq, Nat.add_zero] at h
      simp only [if_true]
      rw [if_neg (not_lt.mpr h)]

/-- Over the limit no call returns a part of the body. -/
theorem limitedReceive_over {maxBytes : ℤ} {seen : ℕ} {message : Message}
    (h : maxBytes < (seen + bodyBytes [message] : ℕ)) :
    (limitedReceive maxBytes seen message).2.isRequest = false := by
  rw [limitedReceive]
  cases hreq : message.isRequest with
  | false =>
      exact hreq
  | true =>
      rw [bodyBytes, bodyBytes, if_pos hreq, Nat.add_zero] at h
      simp only [if_true]
      rw [if_pos h]
      rfl

theorem delivered_cons (maxBytes : ℤ) (seen : ℕ) (message : Message) (messages : List Message) :
    delivered maxBytes seen (message :: messages) =
      (limitedReceive maxBytes seen message).2 ::
        delivered maxBytes (seen + bodyBytes [message]) messages := by
  rw [delivered, limitedReceive_seen]

theorem delivered_append (maxBytes : ℤ) (seen : ℕ) (front back : List Message) :
    delivered maxBytes seen (front ++ back) =
      delivered maxBytes seen front ++ delivered maxBytes (seen + bodyBytes front) back := by
  induction front generalizing seen with
  | nil =>
      rfl
  | cons message front ih =>
      have hcons : bodyBytes (message :: front) = bodyBytes [message] + bodyBytes front :=
        bodyBytes_append [message] front
      rw [List.cons_append, delivered_cons, delivered_cons, ih, hcons, Nat.add_assoc,
        List.cons_append]

@[simp] theorem length_delivered (maxBytes : ℤ) (seen : ℕ) (messages : List Message) :
    (delivered maxBytes seen messages).length = messages.length := by
  induction messages generalizing seen with
  | nil =>
      rfl
  | cons message messages ih =>
      rw [delivered_cons, List.length_cons, List.length_cons, ih]

/-- Once the count is over the limit, nothing of the body is delivered. -/
theorem delivered_over {maxBytes : ℤ} {seen : ℕ} (h : maxBytes < seen) (messages : List Message) :
    ∀ message ∈ delivered maxBytes seen messages, message.isRequest = false := by
  induction messages generalizing seen with
  | nil =>
      intro message hmem
      exact absurd hmem List.not_mem_nil
  | cons message messages ih =>
      have hover : maxBytes < (seen + bodyBytes [message] : ℕ) := by omega
      rw [delivered_cons]
      intro other hmem
      rcases List.mem_cons.mp hmem with rfl | hrest
      · exact limitedReceive_over hover
      · exact ih hover other hrest

/-- While everything stays under the limit, the messages pass unchanged. -/
theorem delivered_under {maxBytes : ℤ} {seen : ℕ} {messages : List Message}
    (h : (seen + bodyBytes messages : ℕ) ≤ maxBytes) : delivered maxBytes seen messages = messages := by
  induction messages generalizing seen with
  | nil =>
      rfl
  | cons message messages ih =>
      have hcons : bodyBytes (message :: messages) = bodyBytes [message] + bodyBytes messages :=
        bodyBytes_append [message] messages
      rw [delivered_cons, limitedReceive_under (by omega), ih (by omega)]

/-- The bodies delivered fit into what was left of the limit. -/
theorem bodyBytes_delivered {maxBytes : ℤ} {seen : ℕ} (h : seen ≤ maxBytes)
    (messages : List Message) : (seen + bodyBytes (delivered maxBytes seen messages) : ℕ) ≤ maxBytes := by
  induction messages generalizing seen with
  | nil =>
      exact h
  | cons message messages ih =>
      rw [delivered_cons]
      by_cases hnext : (seen + bodyBytes [message] : ℕ) ≤ maxBytes
      · have hrest := ih hnext
        rw [limitedReceive_under hnext, ← List.singleton_append, bodyBytes_append]
        omega
      · have hover := not_le.mp hnext
        rw [bodyBytes, limitedReceive_over hover, bodyBytes_of_no_request (delivered_over hover messages)]
        exact h

/-! ## The limit -/

theorem call_rejected {maxBytes declared : ℤ} {scope : Scope} (hmax : 0 < maxBytes)
    (hhttp : scope.type = "http".toList) (hlength : contentLength scope = some declared)
    (hover : maxBytes < declared) (messages : List Message) :
    call maxBytes scope messages = .rejected 413 (rejectBody declared maxBytes) := by
  rw [call, if_neg (by simp [hhttp, not_le.mpr hmax]), hlength]
  simp only [if_pos hover]

theorem call_served {maxBytes : ℤ} {scope : Scope} (hmax : 0 < maxBytes)
    (hhttp : scope.type = "http".toList)
    (hlength : ∀ declared, contentLength scope = some declared → declared ≤ maxBytes)
    (messages : List Message) :
    call maxBytes scope messages = .served (delivered maxBytes 0 messages) := by
  rw [call, if_neg (by simp [hhttp, not_le.mpr hmax])]
  cases hdeclared : contentLength scope with
  | none =>
      rfl
  | some declared =>
      simp only [if_neg (not_lt.mpr (hlength declared hdeclared))]

/-- The application gets at most `maxBytes` of a body and nothing of it after the message that
crosses the limit; a body declared too long it never sees, a body within the limit it sees
as the server sent it. -/
theorem body_limit {maxBytes : ℤ} (hmax : 0 < maxBytes) {scope : Scope}
    (hhttp : scope.type = "http".toList) (messages : List Message) :
    (∀ received, call maxBytes scope messages = .served received →
      bodyBytes received ≤ maxBytes ∧
        ∀ front message back, messages = front ++ message :: back →
          maxBytes < bodyBytes (front ++ [message]) →
            ∀ other ∈ received.drop front.length, other.isRequest = false) ∧
      (∀ declared, contentLength scope = some declared → maxBytes < declared →
        call maxBytes scope messages = .rejected 413 (rejectBody declared maxBytes)) ∧
      ((∀ declared, contentLength scope = some declared → declared ≤ maxBytes) →
        bodyBytes messages ≤ maxBytes → call maxBytes scope messages = .served messages) := by
  refine ⟨?_, fun declared hlength hover => call_rejected hmax hhttp hlength hover messages, ?_⟩
  · intro received hcall
    by_cases hlength : ∀ declared, contentLength scope = some declared → declared ≤ maxBytes
    · rw [call_served hmax hhttp hlength, Outcome.served.injEq] at hcall
      subst hcall
      have htotal := @bodyBytes_delivered maxBytes 0 hmax.le messages
      rw [Nat.zero_add] at htotal
      refine ⟨htotal, ?_⟩
      rintro front message back rfl hcross
      rw [delivered_append, List.drop_left' (length_delivered maxBytes 0 front), delivered_cons]
      rw [bodyBytes_append, ← Nat.zero_add (bodyBytes front)] at hcross
      intro other hmem
      rcases List.mem_cons.mp hmem with rfl | hrest
      · exact limitedReceive_over hcross
      · exact delivered_over hcross back other hrest
    · push Not at hlength
      obtain ⟨declared, hdeclared, hover⟩ := hlength
      rw [call_rejected hmax hhttp hdeclared hover] at hcall
      cases hcall
  · intro hlength htotal
    rw [call_served hmax hhttp hlength, delivered_under]
    rw [Nat.zero_add]
    exact htotal

def declaring (length : String) : Scope :=
  { type := "http".toList, headers := [(bytes "content-length", bytes length)] }

def part (body : String) : Message :=
  { type := "http.request".toList, body := some (bytes body), moreBody := some true }

/-- A limit of four, under a header that says two: three bytes pass, of six in three parts the first
part does.  Under a header that says nine nothing does. -/
theorem body_limit_four :
    call 4 (declaring "2") [part "abc"] = .served [part "abc"] ∧
      (∃ received, call 4 (declaring "2") [part "abc", part "de", part "f"] = .served received ∧
        bodyBytes received ≤ 4 ∧ ∀ other ∈ received.drop 1, other.isRequest = false) ∧
      call 4 (declaring "9") [part "abc"] = .rejected 413 (rejectBody 9 4) := by
  have htwo : contentLength (declaring "2") = some 2 := by decide
  have hunder : ∀ declared, contentLength (declaring "2") = some declared → declared ≤ 4 := by
    intro declared hdeclared
    rw [htwo] at hdeclared
    cases hdeclared
    decide
  have hserved : ∃ received,
      call 4 (declaring "2") [part "abc", part "de", part "f"] = .served received := ⟨_, rfl⟩
  obtain ⟨received, hcall⟩ := hserved
  obtain ⟨htotal, hcut⟩ := (body_limit (by decide) rfl _).1 received hcall
  refine ⟨(body_limit (by decide) rfl _).2.2 hunder (by decide), ⟨received, hcall, by exact_mod_cast htotal, ?_⟩,
    (body_limit (by decide) rfl _).2.1 9 (by decide) (by decide)⟩
  exact hcut [part "abc"] (part "de") [part "f"] rfl (by decide)

end HandBrakeEncoder.Limits
