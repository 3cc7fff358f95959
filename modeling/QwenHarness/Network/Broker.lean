import Mathlib.Data.Fin.Basic
import Mathlib.Data.List.Basic
import Mathlib.Data.List.TakeWhile
import QwenHarness.Codec.Utf8

/-!
# The network broker

Every request that leaves goes through one broker. It follows redirects itself, and checks the
address again at each of them: scheme, host, deny list and allow list. There are two ways out. A
page is fetched, its content type is checked and its text is cut to a size and sanitized; a raw
request is sent, and its response is handed back as it is. Both follow redirects alike.

The check looks at the text of the host. What it means to keep out are addresses and names, and not
every address or name has the one text the check knows.
-/

/-!
## Hosts

The host of a web address is a domain, an IPv4 address or an IPv6 address, whatever the address was
written like: the parser brings every spelling of an address to one text. An IPv6 address stands in
brackets there, and one that maps an IPv4 address is spelled with hexadecimal pieces.
-/

namespace QwenHarness.Network

/-! ## Addresses -/

structure Ipv4 where
  a : Fin 256
  b : Fin 256
  c : Fin 256
  d : Fin 256
deriving DecidableEq, Repr

/-- Eight pieces of sixteen bits. -/
structure Ipv6 where
  pieces : List (Fin 65536)
  length_eq : pieces.length = 8
deriving DecidableEq, Repr

/-- A number as the serializers write it. -/
def decimal (n : ℕ) : List Char := Nat.toDigits 10 n

def Ipv4.serialize (ip : Ipv4) : List Char :=
  decimal ip.a ++ '.' :: decimal ip.b ++ '.' :: decimal ip.c ++ '.' :: decimal ip.d

/-- How many pieces in a row are zero, from the first on. -/
def zeros : List (Fin 65536) → ℕ
  | [] => 0
  | p :: ps => if p = 0 then zeros ps + 1 else 0

/-- Where the longest row of zeros begins, the first of them if there are several, and how long it
is. -/
def longestZeros : List (Fin 65536) → ℕ × ℕ
  | [] => (0, 0)
  | p :: ps =>
    if (longestZeros ps).2 ≤ zeros (p :: ps) then (0, zeros (p :: ps))
    else ((longestZeros ps).1 + 1, (longestZeros ps).2)

def hexPieces (ps : List (Fin 65536)) : List Char :=
  [':'].intercalate (ps.map fun p ↦ Nat.toDigits 16 p)

/-- Two zero pieces or more are left out, once. -/
def Ipv6.serialize (ip : Ipv6) : List Char :=
  let (start, length) := longestZeros ip.pieces
  if length < 2 then hexPieces ip.pieces
  else hexPieces (ip.pieces.take start) ++ ':' :: ':' :: hexPieces (ip.pieces.drop (start + length))

/-- The IPv4 address an IPv6 address maps. -/
def Ipv6.mapped (ip : Ipv6) : Option Ipv4 :=
  match ip.pieces with
  | [0, 0, 0, 0, 0, 0xFFFF, x, y] => some
      ⟨Fin.ofNat 256 (x / 256), Fin.ofNat 256 x, Fin.ofNat 256 (y / 256), Fin.ofNat 256 y⟩
  | _ => none

/-! ### Ranges -/

/-- Loopback, unspecified, link-local, or one of the private ranges. -/
def Ipv4.isPrivate (ip : Ipv4) : Bool :=
  decide (ip.a = 127) || decide (ip = ⟨0, 0, 0, 0⟩) || decide (ip.a = 169 ∧ ip.b = 254) ||
    decide (ip.a = 10) || decide (ip.a = 172 ∧ 16 ≤ ip.b ∧ ip.b ≤ 31) ||
    decide (ip.a = 192 ∧ ip.b = 168)

def Ipv6.loopback : Ipv6 := ⟨[0, 0, 0, 0, 0, 0, 0, 1], rfl⟩

def Ipv6.unspecified : Ipv6 := ⟨[0, 0, 0, 0, 0, 0, 0, 0], rfl⟩

/-- Loopback, unspecified, link-local, unique-local, or mapping a private IPv4 address. -/
def Ipv6.isPrivate (ip : Ipv6) : Bool :=
  decide (ip = .loopback) || decide (ip = .unspecified) ||
    ip.pieces.head?.any (fun p ↦ decide (0xFE80 ≤ p ∧ p ≤ 0xFEBF)) ||
    ip.pieces.head?.any (fun p ↦ decide (0xFC00 ≤ p ∧ p ≤ 0xFDFF)) ||
    ip.mapped.any Ipv4.isPrivate

/-! ## Domains -/

/-- Lower case, as the host parser leaves a domain. -/
def lower (text : List Char) : List Char := text.map Char.toLower

/-- What no domain has in it. -/
def forbiddenInDomain (c : Char) : Bool :=
  decide (c.toNat ≤ 0x20 ∨ c.toNat = 0x7F) || decide (c ∈ "#/:<>?@[\\]^|%".toList)

/-- The last label, a final dot apart. -/
def lastLabel (name : List Char) : List Char :=
  let name := name.reverse
  let name := if name.head? = some '.' ∧ 1 < name.length then name.tail else name
  (name.takeWhile (· ≠ '.')).reverse

def isHexNumber (label : List Char) : Bool :=
  match label with
  | '0' :: 'x' :: digits => digits.all fun c ↦ c.isDigit || decide ('a' ≤ c ∧ c ≤ 'f')
  | _ => false

/-- A name whose last label is a number is an IPv4 address, or not a host. -/
def endsInNumber (name : List Char) : Bool :=
  (!(lastLabel name).isEmpty && (lastLabel name).all Char.isDigit) || isHexNumber (lastLabel name)

/-- A domain: in lower case, without forbidden characters, and not ending in a number. -/
structure Domain where
  name : List Char
  nonempty : name ≠ []
  is_lower : lower name = name
  permitted : name.all (!forbiddenInDomain ·) = true
  not_number : endsInNumber name = false
deriving DecidableEq

inductive Host where
  | domain (d : Domain)
  | ipv4 (ip : Ipv4)
  | ipv6 (ip : Ipv6)
deriving DecidableEq

/-- `hostname`. -/
def Host.text : Host → List Char
  | .domain d => d.name
  | .ipv4 ip => ip.serialize
  | .ipv6 ip => '[' :: ip.serialize ++ [']']

/-- Without the dot of the root. -/
def stripDot (text : List Char) : List Char :=
  if text.getLast? = some '.' then text.dropLast else text

/-- A host name as it is compared: case and a final dot make no difference. -/
def canonical (text : List Char) : List Char := stripDot (lower text)

/-- Loopback, link-local, unspecified, unique-local and private address literals, in any form. -/
def Host.isPrivate : Host → Bool
  | .domain _ => false
  | .ipv4 ip => ip.isPrivate
  | .ipv6 ip => ip.isPrivate

def Host.isLocalhost : Host → Bool
  | .domain d => decide (canonical d.name = "localhost".toList)
  | _ => false

def metadataAddresses : List Ipv4 := [⟨169, 254, 169, 254⟩, ⟨100, 100, 100, 100⟩]

/-- The metadata endpoint of a cloud, in any form. -/
def Host.isMetadata : Host → Bool
  | .domain d => decide (canonical d.name = "metadata.google.internal".toList)
  | .ipv4 ip => decide (ip ∈ metadataAddresses)
  | .ipv6 ip => ip.mapped.any fun ip ↦ decide (ip ∈ metadataAddresses)

end QwenHarness.Network

namespace QwenHarness.Network

abbrev Text := List Char

/-! ## Policy -/

structure NetworkPolicy where
  allowHosts : List Text
  denyHosts : List Text
  blockPrivateAddresses : Bool
  maxRedirects : ℕ
  maxDownloadBytes : ℕ
  allowedContentTypes : List Text

def defaultNetworkPolicy : NetworkPolicy where
  allowHosts := []
  denyHosts := []
  blockPrivateAddresses := true
  maxRedirects := 5
  maxDownloadBytes := 5 * 1024 * 1024
  allowedContentTypes :=
    ["text/".toList, "application/json".toList, "application/xml".toList,
      "application/xhtml+xml".toList]

inductive NetworkErrorCode where
  | schemeDenied
  | hostDenied
  | privateAddress
  | tooManyRedirects
  | tooLarge
  | contentTypeDenied
  | requestFailed
deriving DecidableEq, Repr

structure NetworkError where
  code : NetworkErrorCode
  message : String
deriving DecidableEq, Repr

/-! ## Checking an address -/

/-- A parsed address. Where the scheme is that of the web, there is a host. -/
inductive Url where
  | web (secure : Bool) (host : Host) (href : Text)
  | other (protocol : String) (hostname href : Text)
      (not_web : protocol ≠ "http:" ∧ protocol ≠ "https:")

def Url.protocol : Url → String
  | .web secure _ _ => if secure then "https:" else "http:"
  | .other protocol _ _ _ => protocol

def Url.hostname : Url → Text
  | .web _ host _ => host.text
  | .other _ hostname _ _ => hostname

/-- `toString`. -/
def Url.href : Url → Text
  | .web _ _ href => href
  | .other _ _ href _ => href

/-- `PRIVATE_HOST`. -/
def privateHost (host : Text) : Bool :=
  ["localhost", "127.", "0.0.0.0", "10.", "192.168.", "169.254.", "::1", "fc00:", "fe80:"].any
    fun start ↦ start.toList.isPrefixOf host

/-- `PRIVATE_IPV4_172`. -/
def privateIpv4_172 : Text → Bool
  | '1' :: '7' :: '2' :: '.' :: x :: y :: '.' :: _ =>
    decide (x = '1' ∧ '6' ≤ y ∧ y ≤ '9') || decide (x = '2' ∧ '0' ≤ y ∧ y ≤ '9') ||
      decide (x = '3' ∧ (y = '0' ∨ y = '1'))
  | _ => false

def metadataHosts : List Text :=
  ["169.254.169.254".toList, "100.100.100.100".toList, "metadata.google.internal".toList]

/-- The host is the one of the entry, or a subdomain of it. -/
def isOrUnder (entry host : Text) : Bool := decide (host = entry ∨ '.' :: entry <:+ host)

def checkHost (host : Text) (policy : NetworkPolicy) : Except NetworkError Unit :=
  let low := lower host
  if metadataHosts.contains low then
    .error ⟨.privateAddress,
      "refusing to reach the cloud metadata endpoint " ++ String.ofList host⟩
  else if policy.blockPrivateAddresses && (privateHost low || privateIpv4_172 low) then
    .error ⟨.privateAddress, "refusing to reach a private/loopback address: " ++ String.ofList host⟩
  else if policy.denyHosts.any (isOrUnder · low) then
    .error ⟨.hostDenied, "host " ++ String.ofList host ++ " is denied by policy"⟩
  else if policy.allowHosts ≠ [] ∧ ¬policy.allowHosts.any (isOrUnder · low) then
    .error ⟨.hostDenied, "host " ++ String.ofList host ++ " is not on the allowlist"⟩
  else .ok ()

structure FetchResponse where
  status : ℕ
  header : String → Option Text
  body : Option (List (List UInt8))
  text : Text
  headerEntries : List (String × String)

/-- What is handed to the underlying fetch. -/
structure Call where
  url : Text
  method : Option String
  headers : List (String × String)
  body : Option Text

/-- The parser of addresses, with the address it is relative to; the answers, one to each hop; and
the sanitizer, with the length it cuts at. -/
structure Surroundings where
  parse : Text → Option Url → Option Url
  answer : ℕ → Call → Except String FetchResponse
  sanitize : Text → ℕ → Text × Bool

variable (env : Surroundings) (policy : NetworkPolicy)

def checkUrl (url : Text) : Except NetworkError Url :=
  match env.parse url none with
  | none => .error ⟨.requestFailed, "invalid URL: " ++ String.ofList url⟩
  | some parsed =>
    if parsed.protocol ≠ "http:" ∧ parsed.protocol ≠ "https:" then
      .error ⟨.schemeDenied,
        "scheme " ++ parsed.protocol ++ " is not allowed (http/https only)"⟩
    else
      match checkHost parsed.hostname policy with
      | .error e => .error e
      | .ok () => .ok parsed

/-! ## Following redirects -/

/-- An error of the broker, or one that is thrown below it. -/
inductive Failure where
  | network (error : NetworkError)
  | thrown (message : String)

structure Outcome (α : Type) where
  result : Except Failure α
  handed : List Call

/-- The loop over the hops. `left` is how many more there may be, and `chain` is what was reached so
far. -/
def follow {α : Type} (call : Text → Call)
    (finish : Url → FetchResponse → List Text → Except Failure α) :
    ℕ → ℕ → Text → List Text → Outcome α
  | 0, _, _, _ =>
    ⟨.error (.network ⟨.tooManyRedirects,
      "exceeded " ++ toString policy.maxRedirects ++ " redirects"⟩), []⟩
  | left + 1, hop, current, chain =>
    match checkUrl env policy current with
    | .error e => ⟨.error (.network e), []⟩
    | .ok parsed =>
      match env.answer hop (call current) with
      | .error message => ⟨.error (.thrown message), [call current]⟩
      | .ok response =>
        if 300 ≤ response.status ∧ response.status < 400 then
          match response.header "location" with
          | none =>
            ⟨.error (.network ⟨.requestFailed,
              "redirect " ++ toString response.status ++ " with no Location header"⟩),
              [call current]⟩
          | some location =>
            match env.parse location (some parsed) with
            | none => ⟨.error (.thrown "Invalid URL"), [call current]⟩
            | some next =>
              let rest := follow call finish left (hop + 1) next.href (chain ++ [parsed.href])
              ⟨rest.result, call current :: rest.handed⟩
        else ⟨finish parsed response (chain ++ [parsed.href]), [call current]⟩

/-! ### Pages -/

structure FetchResult where
  url : Text
  status : ℕ
  contentType : Option Text
  content : Text
  truncated : Bool
  redirectChain : List Text

/-- The bytes up to the cap, and whether more were offered. -/
def takeBounded (cap : ℕ) : ℕ → List (List UInt8) → List UInt8 × Bool
  | _, [] => ([], false)
  | total, chunk :: chunks =>
    if cap < total + chunk.length then (chunk.take (cap - total), true)
    else (chunk ++ (takeBounded cap (total + chunk.length) chunks).1,
      (takeBounded cap (total + chunk.length) chunks).2)

def readBounded (response : FetchResponse) : Text × Bool :=
  match response.body with
  | none => (response.text, false)
  | some chunks =>
    let (bytes, truncated) := takeBounded policy.maxDownloadBytes 0 chunks
    (Utf8.decode bytes, truncated)

def finishFetch (parsed : Url) (response : FetchResponse) (redirectChain : List Text) :
    Except Failure FetchResult :=
  let contentType := response.header "content-type"
  match contentType.filter fun t ↦ decide (policy.allowedContentTypes ≠ []) &&
      !policy.allowedContentTypes.any (List.isPrefixOf · t) with
  | some t =>
    .error (.network ⟨.contentTypeDenied,
      "content-type " ++ String.ofList t ++ " is not allowed"⟩)
  | none =>
    let (text, truncated) := readBounded policy response
    let (content, cut) := env.sanitize text policy.maxDownloadBytes
    .ok ⟨parsed.href, response.status, contentType, content, truncated || cut, redirectChain⟩

def fetchCall (url : Text) : Call := ⟨url, none, [], none⟩

/-- `NetworkBroker.fetch`. -/
def fetch (url : Text) : Outcome FetchResult :=
  follow env policy fetchCall (finishFetch env policy) (policy.maxRedirects + 1) 0 url []

/-! ### Raw requests -/

structure OutboundRequest where
  method : String
  url : Text
  headers : List (String × String)
  body : Option Text

structure RawEgressResponse where
  status : ℕ
  /-- In lower case; what stands first is what a name stands for. -/
  headers : List (String × String)
  text : Except Failure Text
  stream : Option (List (List UInt8))

/-- A body over the cap is an error here, since a frame that is cut says nothing. -/
def readBoundedStrict (response : FetchResponse) : Except Failure Text :=
  let tooLarge : Except Failure Text := .error (.network ⟨.tooLarge,
    "response exceeds " ++ toString policy.maxDownloadBytes ++ " bytes"⟩)
  match response.body with
  | none =>
    if policy.maxDownloadBytes < (Utf8.encode response.text).length then tooLarge
    else .ok response.text
  | some chunks =>
    if policy.maxDownloadBytes < chunks.flatten.length then tooLarge
    else .ok (Utf8.decode chunks.flatten)

def finishSend (_ : Url) (response : FetchResponse) (_ : List Text) :
    Except Failure RawEgressResponse :=
  .ok ⟨response.status, response.headerEntries.foldl (fun hs h ↦ (h.1.toLower, h.2) :: hs) [],
    readBoundedStrict policy response, response.body⟩

def OutboundRequest.call (request : OutboundRequest) (url : Text) : Call :=
  ⟨url, some request.method, request.headers, request.body⟩

/-- `NetworkBroker.send`. -/
def send (request : OutboundRequest) : Outcome RawEgressResponse :=
  follow env policy request.call (finishSend policy) (policy.maxRedirects + 1) 0 request.url []

/-! ## What may be reached -/

/-- The host may be reached under the policy. -/
structure Allowed (host : Host) : Prop where
  not_metadata : host.isMetadata = false
  not_private : policy.blockPrivateAddresses = true →
    host.isPrivate = false ∧ host.isLocalhost = false
  /-- Neither a denied host nor under one; case and a final dot make no difference. -/
  not_denied : ∀ entry ∈ policy.denyHosts, isOrUnder (canonical entry) (canonical host.text) = false
  listed : policy.allowHosts ≠ [] → ∃ entry ∈ policy.allowHosts, isOrUnder entry (lower host.text)

/-- What was handed on is a web address, with a host that may be reached. -/
def OnlyAllowed (calls : List Call) : Prop :=
  ∀ call ∈ calls, ∃ secure host href,
    env.parse call.url none = some (.web secure host href) ∧ Allowed policy host

/-- What the check does not know by its text: an IPv6 address that is private or maps a metadata
address, the metadata endpoint with a final dot, and a denied host but for case or a final dot. -/
inductive Missed : Host → Prop
  | privateIpv6 {ip : Ipv6} : policy.blockPrivateAddresses = true → ip.isPrivate = true →
      Missed (.ipv6 ip)
  | mappedMetadata {ip : Ipv6} {ip' : Ipv4} : ip.mapped = some ip' → ip' ∈ metadataAddresses →
      Missed (.ipv6 ip)
  | metadataDot {d : Domain} : d.name = "metadata.google.internal.".toList → Missed (.domain d)
  | denied {host : Host} {entry : Text} : entry ∈ policy.denyHosts →
      isOrUnder (canonical entry) (canonical host.text) = true →
      isOrUnder entry (lower host.text) = false → Missed host

variable {policy}

theorem checkHost_eq_ok_iff {host : Text} : checkHost host policy = .ok () ↔
    lower host ∉ metadataHosts ∧
      (policy.blockPrivateAddresses = true →
        privateHost (lower host) = false ∧ privateIpv4_172 (lower host) = false) ∧
      (∀ entry ∈ policy.denyHosts, isOrUnder entry (lower host) = false) ∧
      (policy.allowHosts ≠ [] → ∃ entry ∈ policy.allowHosts, isOrUnder entry (lower host)) := by
  rw [checkHost, ← List.contains_iff_mem]
  split_ifs with hmetadata hprivate hdeny hallow
  · exact iff_of_false (by simp) fun h ↦ h.1 hmetadata
  · rw [Bool.and_eq_true, Bool.or_eq_true] at hprivate
    refine iff_of_false (by simp) fun h ↦ ?_
    obtain ⟨hhost, h172⟩ := h.2.1 hprivate.1
    rcases hprivate.2 with hp | hp
    · rw [hhost] at hp
      cases hp
    · rw [h172] at hp
      cases hp
  · obtain ⟨entry, hentry, hunder⟩ := List.any_eq_true.mp hdeny
    refine iff_of_false (by simp) fun h ↦ ?_
    rw [h.2.2.1 entry hentry] at hunder
    cases hunder
  · refine iff_of_false (by simp) fun h ↦ hallow.2 ?_
    exact List.any_eq_true.mpr (h.2.2.2 hallow.1)
  · refine iff_of_true rfl ⟨hmetadata, fun hblock ↦ ?_, fun entry hentry ↦ ?_, fun hne ↦ ?_⟩
    · rw [hblock, Bool.true_and, Bool.or_eq_true, not_or, Bool.not_eq_true, Bool.not_eq_true]
        at hprivate
      exact hprivate
    · rw [List.any_eq_true] at hdeny
      exact Bool.eq_false_iff.mpr fun hunder ↦ hdeny ⟨entry, hentry, hunder⟩
    · exact List.any_eq_true.mp (not_not.mp fun h ↦ hallow ⟨hne, h⟩)

/-! ### IPv4 addresses -/

theorem lower_append (xs ys : Text) : lower (xs ++ ys) = lower xs ++ lower ys := List.map_append

theorem lower_cons (c : Char) (xs : Text) : lower (c :: xs) = c.toLower :: lower xs := rfl

theorem lower_serialize (ip : Ipv4) : lower ip.serialize =
    lower (decimal ip.a) ++ '.' :: (lower (decimal ip.b) ++ '.' ::
      (lower (decimal ip.c) ++ '.' :: lower (decimal ip.d))) := by
  simp [Ipv4.serialize, lower_append, lower_cons]

/-- The regular expression looks at the first characters only. -/
theorem privateHost_append {xs : Text} (h : privateHost xs = true) (ys : Text) :
    privateHost (xs ++ ys) = true := by
  obtain ⟨start, hstart, hstarts⟩ := List.any_eq_true.mp h
  rw [List.isPrefixOf_iff_prefix] at hstarts
  exact List.any_eq_true.mpr ⟨start, hstart,
    List.isPrefixOf_iff_prefix.mpr (hstarts.trans (List.prefix_append xs ys))⟩

theorem privateIpv4_172_append {xs : Text} (h : privateIpv4_172 xs = true) (ys : Text) :
    privateIpv4_172 (xs ++ ys) = true := by
  unfold privateIpv4_172 at h
  split at h
  · exact h
  · cases h

/-- An address whose first number is enough for the regular expression. -/
theorem privateHost_of_first {ip : Ipv4} (h : privateHost (lower (decimal ip.a) ++ ['.']) = true) :
    privateHost (lower ip.serialize) = true := by
  rw [lower_serialize, List.append_cons]
  exact privateHost_append h _

/-- An address whose first two numbers are enough. -/
theorem privateHost_of_second {ip : Ipv4}
    (h : privateHost (lower (decimal ip.a) ++ ['.'] ++ lower (decimal ip.b) ++ ['.']) = true) :
    privateHost (lower ip.serialize) = true := by
  rw [lower_serialize, List.append_cons, ← List.append_assoc, List.append_cons]
  exact privateHost_append h _

theorem privateIpv4_172_decimal : ∀ b : Fin 256, 16 ≤ b → b ≤ 31 →
    privateIpv4_172 (lower (decimal (172 : Fin 256)) ++ ['.'] ++ lower (decimal b) ++ ['.']) =
      true := by
  decide +kernel

/-- **The check knows every private IPv4 address.** -/
theorem private_ipv4 {ip : Ipv4} (h : ip.isPrivate = true) :
    privateHost (lower ip.serialize) = true ∨ privateIpv4_172 (lower ip.serialize) = true := by
  simp only [Ipv4.isPrivate, Bool.or_eq_true, decide_eq_true_eq] at h
  rcases h with ((((ha | rfl) | ⟨ha, hb⟩) | ha) | ⟨ha, hlow, hhigh⟩) | ⟨ha, hb⟩
  · refine .inl (privateHost_of_first ?_)
    rw [ha]
    decide
  · left
    decide
  · refine .inl (privateHost_of_second ?_)
    rw [ha, hb]
    decide
  · refine .inl (privateHost_of_first ?_)
    rw [ha]
    decide
  · right
    rw [lower_serialize, List.append_cons, ← List.append_assoc, List.append_cons, ha]
    exact privateIpv4_172_append (privateIpv4_172_decimal ip.b hlow hhigh) _
  · refine .inl (privateHost_of_second ?_)
    rw [ha, hb]
    decide

/-! ### The other hosts -/

theorem metadata_ipv4 {ip : Ipv4} (h : ip ∈ metadataAddresses) :
    lower ip.serialize ∈ metadataHosts := by
  rcases List.mem_cons.mp h with rfl | h
  · decide
  · rw [List.mem_singleton.mp h]
    decide

theorem canonical_eq {name target : Text} (hname : lower name = name)
    (h : canonical name = target) :
    name = target ∨ name = target ++ ['.'] := by
  rw [canonical, hname, stripDot] at h
  split_ifs at h with hlast
  · right
    rw [← h]
    exact (List.dropLast_append_getLast? _ hlast).symm
  · exact .inl h

theorem localhost_domain {d : Domain} (h : canonical d.name = "localhost".toList) :
    privateHost (lower d.name) = true := by
  rw [d.is_lower]
  rcases canonical_eq d.is_lower h with hname | hname
  · rw [hname]
    decide
  · rw [hname]
    exact privateHost_append (by decide) _

/-- **Of the hosts the check lets through**, those that may not be reached are those it misses. -/
theorem allowed_iff_not_missed {host : Host} (h : checkHost host.text policy = .ok ()) :
    Allowed policy host ↔ ¬Missed policy host := by
  obtain ⟨hmetadata, hprivate, hdeny, hallow⟩ := checkHost_eq_ok_iff.mp h
  constructor
  · intro hallowed hmissed
    cases hmissed with
    | privateIpv6 hblock hip =>
      have hfalse := (hallowed.not_private hblock).1
      rw [Host.isPrivate, hip] at hfalse
      cases hfalse
    | mappedMetadata hmapped hip =>
      have hfalse := hallowed.not_metadata
      rw [Host.isMetadata, hmapped, Option.any_some, decide_eq_true hip] at hfalse
      cases hfalse
    | metadataDot hname =>
      have hfalse := hallowed.not_metadata
      rw [Host.isMetadata, hname, decide_eq_true (by decide)] at hfalse
      cases hfalse
    | denied hentry hunder _ =>
      rw [hallowed.not_denied _ hentry] at hunder
      cases hunder
  · intro hmissed
    refine ⟨?_, fun hblock ↦ ⟨?_, ?_⟩, fun entry hentry ↦ ?_, hallow⟩
    · rw [Bool.eq_false_iff]
      intro hmeta
      cases host with
      | domain d =>
        rcases canonical_eq d.is_lower (of_decide_eq_true hmeta) with hname | hname
        · refine hmetadata ?_
          rw [Host.text, d.is_lower, hname]
          decide
        · exact hmissed (.metadataDot hname)
      | ipv4 ip => exact hmetadata (metadata_ipv4 (of_decide_eq_true hmeta))
      | ipv6 ip =>
        obtain ⟨ip', hmapped, hip⟩ := (Option.any_eq_true _ _).mp hmeta
        exact hmissed (.mappedMetadata hmapped (of_decide_eq_true hip))
    · rw [Bool.eq_false_iff]
      intro hpriv
      cases host with
      | domain d => cases hpriv
      | ipv4 ip =>
        obtain ⟨hhost, h172⟩ := hprivate hblock
        rcases private_ipv4 hpriv with hp | hp
        · exact absurd hhost (by rw [Host.text, hp]; simp)
        · exact absurd h172 (by rw [Host.text, hp]; simp)
      | ipv6 ip => exact hmissed (.privateIpv6 hblock hpriv)
    · rw [Bool.eq_false_iff]
      intro hlocal
      cases host with
      | domain d =>
        have hhost := (hprivate hblock).1
        rw [Host.text, localhost_domain (of_decide_eq_true hlocal)] at hhost
        cases hhost
      | ipv4 ip => cases hlocal
      | ipv6 ip => cases hlocal
    · rw [Bool.eq_false_iff]
      exact fun hunder ↦ hmissed (.denied hentry hunder (hdeny entry hentry))

/-! ## Along the redirects -/

variable {env}

/-- Whether the check lets the address through. -/
def passes (env : Surroundings) (policy : NetworkPolicy) (url : Text) : Bool :=
  (checkUrl env policy url).toBool

/-- Where the answer to an address redirects to. -/
def redirectTarget (env : Surroundings) (call : Text → Call) (hop : ℕ) (url : Text) :
    Option Text :=
  (env.parse url none).bind fun parsed ↦
    match env.answer hop (call url) with
    | .error _ => none
    | .ok response =>
      if 300 ≤ response.status ∧ response.status < 400 then
        (response.header "location").bind fun location ↦
          (env.parse location (some parsed)).map Url.href
      else none

/-- An address and those it redirects to, one after the other, whatever the check says of them. -/
def redirects (env : Surroundings) (call : Text → Call) : ℕ → ℕ → Text → List Text
  | 0, _, _ => []
  | left + 1, hop, url =>
    url :: (redirectTarget env call hop url).elim [] (redirects env call left (hop + 1))

theorem checkUrl_eq_ok {url : Text} {parsed : Url} (h : checkUrl env policy url = .ok parsed) :
    env.parse url none = some parsed ∧ ∃ secure host href, parsed = .web secure host href ∧
      checkHost host.text policy = .ok () := by
  rw [checkUrl] at h
  rcases hparse : env.parse url none with - | u
  · rw [hparse] at h
    cases h
  rw [hparse] at h
  simp only at h
  split_ifs at h with hscheme
  rcases hhost : checkHost u.hostname policy with e | ⟨⟩
  · rw [hhost] at h
    cases h
  rw [hhost] at h
  obtain rfl : u = parsed := by simpa using h
  refine ⟨rfl, ?_⟩
  cases u with
  | web secure host href => exact ⟨secure, host, href, rfl, hhost⟩
  | other protocol hostname href not_web => exact absurd not_web hscheme

/-- **What is handed on**: the redirects, up to the first the check does not let through. -/
theorem handed_follow {α : Type} (call : Text → Call)
    (finish : Url → FetchResponse → List Text → Except Failure α) (left hop : ℕ) (url : Text)
    (chain : List Text) : (follow env policy call finish left hop url chain).handed =
      ((redirects env call left hop url).takeWhile (passes env policy)).map call := by
  induction left generalizing hop url chain with
  | zero => rfl
  | succ left ih =>
    rw [follow, redirects, List.takeWhile_cons, passes]
    rcases hcheck : checkUrl env policy url with e | parsed
    · rfl
    have hparse := (checkUrl_eq_ok hcheck).1
    rw [redirectTarget, hparse, Option.bind_some]
    rcases hanswer : env.answer hop (call url) with message | response
    · rfl
    by_cases hstatus : 300 ≤ response.status ∧ response.status < 400
    · simp only [hstatus, and_self, if_true]
      rcases hlocation : response.header "location" with - | location
      · rfl
      simp only [Option.bind_some]
      rcases hnext : env.parse location (some parsed) with - | next
      · rfl
      exact congrArg (call url :: ·) (ih (hop + 1) next.href (chain ++ [parsed.href]))
    · simp only [hstatus, if_false]
      rfl

/-- No address the check lets through, along the redirects, has a host it misses. -/
def MissesNone (env : Surroundings) (policy : NetworkPolicy) (call : Text → Call) (url : Text) :
    Prop :=
  ∀ hop ∈ (redirects env call (policy.maxRedirects + 1) 0 url).takeWhile (passes env policy),
    ∀ secure host href, env.parse hop none = some (.web secure host href) → ¬Missed policy host

theorem onlyAllowed_follow_iff {α : Type} {call : Text → Call} (hcall : ∀ url, (call url).url = url)
    (finish : Url → FetchResponse → List Text → Except Failure α) (url : Text) :
    OnlyAllowed env policy
        (follow env policy call finish (policy.maxRedirects + 1) 0 url []).handed ↔
      MissesNone env policy call url := by
  rw [handed_follow, OnlyAllowed, List.forall_mem_map]
  refine forall₂_congr fun hop hmem ↦ ?_
  rw [hcall]
  have hpass : passes env policy hop = true := List.mem_takeWhile_imp hmem
  rw [passes] at hpass
  rcases hcheck : checkUrl env policy hop with e | parsed
  · rw [hcheck] at hpass
    cases hpass
  obtain ⟨hparse, secure, host, href, rfl, hhost⟩ := checkUrl_eq_ok hcheck
  rw [hparse]
  constructor
  · rintro ⟨secure', host', href', h, hallowed⟩ secure'' host'' href'' h'
    cases h
    cases h'
    exact (allowed_iff_not_missed hhost).mp hallowed
  · exact fun h ↦ ⟨secure, host, href, rfl,
      (allowed_iff_not_missed hhost).mpr (h secure host href rfl)⟩

/-- **Both ways out** reach only what may be reached, exactly when none of the addresses on the way
has a host the check misses. -/
theorem onlyAllowed_iff_missesNone (env : Surroundings) (policy : NetworkPolicy) :
    (∀ url, OnlyAllowed env policy (fetch env policy url).handed ↔
      MissesNone env policy fetchCall url) ∧
    ∀ request : OutboundRequest, OnlyAllowed env policy (send env policy request).handed ↔
      MissesNone env policy request.call request.url :=
  ⟨fun url ↦ onlyAllowed_follow_iff (fun _ ↦ rfl) _ url,
    fun request ↦ onlyAllowed_follow_iff (fun _ ↦ rfl) _ request.url⟩

/-! ### An address in brackets -/

private def debuggerUrl : Text := "http://[::1]:9229/json".toList

private def localAnswers : Surroundings where
  parse text _ :=
    if text = debuggerUrl then some (.web false (.ipv6 .loopback) debuggerUrl) else none
  answer _ _ := .ok ⟨200, fun _ ↦ none, none, "[]".toList, []⟩
  sanitize text _ := (text, false)

/-- **The loopback interface is reached** by its bracketed address. -/
theorem not_onlyAllowed_loopback : ¬OnlyAllowed localAnswers defaultNetworkPolicy
    (fetch localAnswers defaultNetworkPolicy debuggerUrl).handed := by
  have hpass : passes localAnswers defaultNetworkPolicy debuggerUrl = true := by decide
  have hhanded : fetchCall debuggerUrl ∈
      (fetch localAnswers defaultNetworkPolicy debuggerUrl).handed := by
    rw [fetch, handed_follow, redirects, List.takeWhile_cons, if_pos hpass]
    exact List.mem_cons_self
  intro h
  obtain ⟨secure, host, href, hparse, hallowed⟩ := h _ hhanded
  obtain rfl : Host.ipv6 .loopback = host := by
    have hurl : some (Url.web false (.ipv6 .loopback) debuggerUrl) = some (.web secure host href) :=
      hparse
    cases hurl
    rfl
  have hfalse := (hallowed.not_private rfl).1
  revert hfalse
  decide

end QwenHarness.Network
