import Nulleye.HttpMessages

/-!
What the metrics server replies to the first bytes of a connection. Whatever they are, the
reply is one complete message, and a request line that arrived whole decides which.
-/
namespace Nulleye.MetricsReplies
open Nulleye.CStrings Nulleye.Decimals Nulleye.HttpMessages

/-- `metrics_response`. -/
def metricsResponse : Mem :=
  ascii "# HELP nulleye_events_total Total events processed by NullEye\n# TYPE nulleye_events_total counter\nnulleye_events_total 0\n"

/-- `health`. -/
def health : Mem := ascii "\x7b\"status\":\"ok\"\x7d\n"

/-- `strstr(req, needle) == req`. -/
def isAt (needle req : Mem) : Option Bool := (strstr needle req).map fun found => found = some 0

/-- The arguments of the calls of `dprintf` that reply 200. -/
def dprintfOk (contentType body : Mem) : Mem :=
  ascii "HTTP/1.1 200 OK\r\nContent-Type: " ++ contentType ++ ascii "\r\nContent-Length: " ++ ascii body.length.repr ++
    ascii "\r\n\r\n" ++ body

/-- `a || b`. -/
def orElse (a b : Option Bool) : Option Bool := a.bind fun found => if found then some true else b

/-- What `metrics_loop` writes for `r > 0` bytes in `req`, with the bytes of `req` behind them. -/
def reply (chunk stale : Mem) : Option Mem := do
  let req := chunk ++ 0 :: stale
  let metrics ← orElse (isAt (ascii "GET /metrics ") req) (isAt (ascii "GET /metrics HTTP/1.") req)
  if metrics then return dprintfOk (ascii "text/plain; version=0.0.4; charset=utf-8") metricsResponse
  else
    let healthy ← orElse (isAt (ascii "GET /health ") req) (isAt (ascii "GET /health HTTP/1.") req)
    if healthy then return dprintfOk (ascii "application/json") health
    else return ascii "HTTP/1.1 404 Not Found\r\nContent-Length: 0\r\n\r\n"

/-! ### What the replies are to be -/

/-- The reply 200 with a body. -/
def okMessage (contentType body : Mem) : Message where
  start := ascii "HTTP/1.1 200 OK"
  fields := [(ascii "Content-Type",contentType),(ascii "Content-Length",ascii body.length.repr)]
  body

def notFound : Message := ⟨ascii "HTTP/1.1 404 Not Found",[(ascii "Content-Length",ascii "0")],[]⟩

/-- The resource that a request line names. -/
def resource (method target : Mem) : Message :=
  if method = ascii "GET" ∧ target = ascii "/metrics" then
    okMessage (ascii "text/plain; version=0.0.4; charset=utf-8") metricsResponse
  else if method = ascii "GET" ∧ target = ascii "/health" then okMessage (ascii "application/json") health
  else notFound

/-- What the first bytes of a connection are answered with. -/
def answer (chunk : Mem) : Message :=
  if ascii "GET /metrics " <+: chunk then okMessage (ascii "text/plain; version=0.0.4; charset=utf-8") metricsResponse
  else if ascii "GET /health " <+: chunk then okMessage (ascii "application/json") health
  else notFound

/-! ### Routes -/

theorem isAt_eq {needle : Mem} (plain : 0 ∉ needle) (chunk stale : Mem) :
    isAt needle (chunk ++ 0 :: stale) = some (decide (needle <+: chunk)) := by
  have ended : 0 ∈ chunk ++ 0 :: stale := by simp
  have same : firstAt needle (text chunk) = some 0 ↔ needle <+: chunk := by
    rw [firstAt_eq_some]
    constructor
    · rintro ⟨here,_⟩
      exact here.trans (List.takeWhile_prefix _)
    · intro here
      obtain ⟨rest,rfl⟩ := here
      rw [text_append plain]
      exact ⟨List.prefix_append _ _,Nat.zero_le _,fun j before => absurd before (Nat.not_lt_zero j)⟩
  rw [isAt,strstr_eq plain,text_cut]
  cases found : firstAt needle (text chunk) with
  | none =>
    rw [found] at same
    simp only [if_pos ended,Option.map_some]
    congr 1
    simpa using same
  | some i =>
    rw [found] at same
    simp only [Option.map_some]
    congr 1
    simpa using same

/-- A text that begins with the second needle begins with the first. -/
theorem isAt_either {needle : Mem} (plain : 0 ∉ needle) {version : Mem} (plain' : 0 ∉ version)
    (chunk stale : Mem) :
    orElse (isAt needle (chunk ++ 0 :: stale)) (isAt (needle ++ version) (chunk ++ 0 :: stale)) =
      some (decide (needle <+: chunk)) := by
  rw [orElse,isAt_eq plain,Option.bind_some]
  by_cases here : needle <+: chunk
  · simp [here]
  · have longer : ¬ needle ++ version <+: chunk := fun longer => here ((List.prefix_append _ _).trans longer)
    have ended : 0 ∉ needle ++ version := by simp [plain,plain']
    simp [here,isAt_eq ended,longer]

theorem dprintfOk_eq (contentType body : Mem) : dprintfOk contentType body = (okMessage contentType body).render := by
  have head : ascii "HTTP/1.1 200 OK\r\nContent-Type: " = ascii "HTTP/1.1 200 OK" ++ crlf ++ ascii "Content-Type" ++ ascii ": " := rfl
  have name : ascii "\r\nContent-Length: " = crlf ++ ascii "Content-Length" ++ ascii ": " := rfl
  have blank : ascii "\r\n\r\n" = crlf ++ crlf := rfl
  simp only [dprintfOk,okMessage,Message.render,head,name,blank,List.flatMap_cons,List.flatMap_nil,renderField,List.append_assoc,
    List.append_nil]

theorem reply_answer (chunk stale : Mem) : reply chunk stale = some (answer chunk).render := by
  have missing : ascii "HTTP/1.1 404 Not Found\r\nContent-Length: 0\r\n\r\n" = notFound.render := rfl
  have metrics : orElse (isAt (ascii "GET /metrics ") (chunk ++ 0 :: stale)) (isAt (ascii "GET /metrics HTTP/1.") (chunk ++ 0 :: stale)) =
      some (decide (ascii "GET /metrics " <+: chunk)) := isAt_either (by decide) (by decide : 0 ∉ ascii "HTTP/1.") chunk stale
  have healthy : orElse (isAt (ascii "GET /health ") (chunk ++ 0 :: stale)) (isAt (ascii "GET /health HTTP/1.") (chunk ++ 0 :: stale)) =
      some (decide (ascii "GET /health " <+: chunk)) := isAt_either (by decide) (by decide : 0 ∉ ascii "HTTP/1.") chunk stale
  simp only [reply,metrics,healthy,Option.bind_eq_bind,Option.bind_some,answer,decide_eq_true_eq,missing,dprintfOk_eq]
  split_ifs <;> rfl

theorem okMessage_framed {contentType : Mem} (plain : 13 ∉ contentType) (visible : ∀ b ∈ contentType.head?,isBlank b = false)
    (body : Mem) : Framed (okMessage contentType body) where
  start := (by decide : 13 ∉ ascii "HTTP/1.1 200 OK")
  fields f member := by
    have type : ascii "Content-Type" ≠ [] ∧ 13 ∉ ascii "Content-Type" ∧ 58 ∉ ascii "Content-Type" := by decide
    have length : ascii "Content-Length" ≠ [] ∧ 13 ∉ ascii "Content-Length" ∧ 58 ∉ ascii "Content-Length" := by decide
    obtain ⟨all_digits,_,_⟩ := ascii_repr_number body.length
    rcases List.mem_cons.mp member with rfl | member
    · exact ⟨type.1,type.2,plain,visible⟩
    · obtain rfl := List.mem_singleton.mp member
      refine ⟨length.1,length.2,fun cr => absurd (all_digits _ cr) (by decide),?_⟩
      intro b first
      have digit := all_digits b (List.mem_of_mem_head? first)
      simp only [isdigit,Bool.and_eq_true,decide_eq_true_eq,UInt8.le_iff_toNat_le] at digit
      have at_least : 48 ≤ b.toNat := digit.1
      simp only [isBlank,Bool.or_eq_false_iff,decide_eq_false_iff_not]
      constructor <;> rintro rfl <;> exact absurd at_least (by decide)
  length := by
    obtain ⟨all_digits,some_digit,value⟩ := ascii_repr_number body.length
    have other : ascii "Content-Type" ≠ ascii "Content-Length" := by decide
    simp [contentLength,okMessage,other,some_digit,value]
    exact all_digits

theorem answer_framed (chunk : Mem) : Framed (answer chunk) := by
  unfold answer
  split_ifs
  · exact okMessage_framed (by decide +kernel) (by decide +kernel) _
  · exact okMessage_framed (by decide +kernel) (by decide +kernel) _
  · have zero : ascii "Content-Length" ≠ [] ∧ (13 ∉ ascii "Content-Length" ∧ 58 ∉ ascii "Content-Length") ∧ 13 ∉ ascii "0" := by decide +kernel
    refine ⟨by decide +kernel,fun f member => ?_,rfl⟩
    obtain rfl := List.mem_singleton.mp member
    exact ⟨zero.1,zero.2.1,zero.2.2,by decide +kernel⟩

/-- A needle of two words and a blank begins a line of a method and a target exactly if it is these two. -/
theorem words_begin {first second method target rest : Mem} (first_plain : 32 ∉ first) (second_plain : 32 ∉ second)
    (method_plain : 32 ∉ method) (target_plain : 32 ∉ target) :
    first ++ 32 :: (second ++ [32]) <+: method ++ 32 :: (target ++ 32 :: rest) ↔ method = first ∧ target = second := by
  constructor
  · rintro ⟨more,same⟩
    rw [List.append_assoc,List.cons_append,List.append_assoc,List.singleton_append] at same
    obtain ⟨rfl,behind⟩ := separator_inj first_plain method_plain same
    obtain ⟨rfl,_⟩ := separator_inj second_plain target_plain behind
    exact ⟨rfl,rfl⟩
  · rintro ⟨rfl,rfl⟩
    exact ⟨rest,by simp⟩

theorem answer_resource {method target : Mem} (method_plain : 32 ∉ method) (target_plain : 32 ∉ target) (rest : Mem) :
    answer (method ++ 32 :: (target ++ 32 :: rest)) = resource method target := by
  have metrics : ascii "GET /metrics " = ascii "GET" ++ 32 :: (ascii "/metrics" ++ [32]) := rfl
  have healthy : ascii "GET /health " = ascii "GET" ++ 32 :: (ascii "/health" ++ [32]) := rfl
  unfold answer resource
  have get : 32 ∉ ascii "GET" := by decide
  have first : 32 ∉ ascii "/metrics" := by decide
  have second : 32 ∉ ascii "/health" := by decide
  simp only [metrics,healthy,words_begin get first method_plain target_plain,words_begin get second method_plain target_plain]

/-- For all first bytes of a connection, whatever the buffer held before, the reply is one complete message: a client
    reads it back and nothing is left of it. A request line that arrived whole is answered by its method and target. -/
theorem reply_complete (chunk stale : Mem) :
    ∃ bytes,reply chunk stale = some bytes ∧ (∀ rest,readMessage (bytes ++ rest) = some (answer chunk,rest)) ∧
      ∀ method target rest,32 ∉ method → 32 ∉ target → chunk = method ++ 32 :: (target ++ 32 :: rest) →
        answer chunk = resource method target := by
  refine ⟨_,reply_answer chunk stale,fun rest => readMessage_render (answer_framed chunk) rest,?_⟩
  rintro method target rest method_plain target_plain rfl
  exact answer_resource method_plain target_plain rest

end Nulleye.MetricsReplies
