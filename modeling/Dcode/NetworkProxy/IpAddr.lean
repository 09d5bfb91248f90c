import Dcode.Lib.Str

/-!
# IP address literals

`str::parse::<IpAddr>` of the standard library and the classes of addresses that the proxy keeps local
(`codex-rs/network-proxy/src/policy.rs`).
-/

namespace Dcode.NetworkProxy

/-- `IpAddr`: the bits of an IPv4 or an IPv6 address. -/
inductive IpAddr where
  | v4 (bits : BitVec 32)
  | v6 (bits : BitVec 128)
deriving DecidableEq

namespace IpAddr

/-! ## Reading -/

def digit? (radix : Nat) (c : Char) : Option Nat :=
  let value :=
    if '0' ≤ c ∧ c ≤ '9' then c.toNat - '0'.toNat
    else if 'a' ≤ c ∧ c ≤ 'z' then c.toNat - 'a'.toNat + 10
    else if 'A' ≤ c ∧ c ≤ 'Z' then c.toNat - 'A'.toNat + 10
    else radix
  if value < radix then some value else none

/-- `read_number`: at least one and at most `maxDigits` digits, a value that the target type holds. -/
def readNumber (radix maxDigits limit : Nat) (allowZeroPrefix : Bool) (s : Str) : Option (Nat × Str) :=
  let digits := s.takeWhile fun c => (digit? radix c).isSome
  let value := (digits.filterMap (digit? radix)).foldl (fun n d => n * radix + d) 0
  if digits = [] ∨ maxDigits < digits.length ∨ limit < value then none
  else if !allowZeroPrefix && digits.head? = some '0' && 1 < digits.length then none
  else some (value, s.drop digits.length)

def readGivenChar (c : Char) : Str → Option Str
  | [] => none
  | d :: s => if d = c then some s else none

/-- `read_separator`: the separator stands in front of every element but the first. -/
def readSeparator {α : Type} (sep : Char) (index : Nat) (inner : Str → Option (α × Str)) (s : Str) : Option (α × Str) :=
  if 0 < index then (readGivenChar sep s).bind inner else inner s

def readIpv4Addr (s : Str) : Option (Nat × Str) := do
  let (a, s) ← readNumber 10 3 255 false s
  let (b, s) ← readSeparator '.' 1 (readNumber 10 3 255 false) s
  let (c, s) ← readSeparator '.' 2 (readNumber 10 3 255 false) s
  let (d, s) ← readSeparator '.' 3 (readNumber 10 3 255 false) s
  return (((a * 256 + b) * 256 + c) * 256 + d, s)

/-- `read_groups`: the groups from the one with the given index on, and whether the last two are an
embedded IPv4 address. -/
def readGroups : (remaining index : Nat) → Str → List Nat × Bool × Str
  | 0, _, s => ([], false, s)
  | remaining + 1, index, s =>
    match if 0 < remaining then readSeparator ':' index readIpv4Addr s else none with
    | some (embedded, s) => ([embedded / 65536, embedded % 65536], true, s)
    | none =>
      match readSeparator ':' index (readNumber 16 4 65535 true) s with
      | some (group, s) =>
        let (groups, ipv4, s) := readGroups remaining (index + 1) s
        (group :: groups, ipv4, s)
      | none => ([], false, s)

def readIpv6Addr (s : Str) : Option (List Nat × Str) :=
  let (head, headV4, s) := readGroups 8 0 s
  if head.length = 8 then some (head, s)
  -- the IPv4 part is not allowed before `::`
  else if headV4 then none
  else do
    let s ← readGivenChar ':' s
    let s ← readGivenChar ':' s
    let (tail, _, s) := readGroups (8 - (head.length + 1)) 0 s
    return (head ++ List.replicate (8 - head.length - tail.length) 0 ++ tail, s)

def parse (s : Str) : Option IpAddr :=
  match readIpv4Addr s with
  | some (value, rest) => if rest = [] then some (.v4 (BitVec.ofNat 32 value)) else none
  | none =>
    match readIpv6Addr s with
    | some (groups, []) =>
      some (.v6 (BitVec.ofNat 128 (groups.foldl (fun n group => n * 65536 + group) 0)))
    | _ => none

example : parse "::ffff:1.2.3.4".toList = some (.v6 0xffff01020304#128) := by decide +kernel

/-! ## Classes of addresses -/

def ipv4InCidr (ip base : BitVec 32) (prefixLength : Nat) : Bool :=
  let mask := if prefixLength = 0 then 0 else BitVec.allOnes 32 <<< (32 - prefixLength)
  ip &&& mask == base &&& mask

/-- The address with the given octets. -/
def octets (a b c d : Nat) : BitVec 32 := BitVec.ofNat 32 (((a * 256 + b) * 256 + c) * 256 + d)

def isNonPublicIpv4 (ip : BitVec 32) : Bool :=
  -- loopback, private, link-local, unspecified, multicast and broadcast
  ipv4InCidr ip (octets 127 0 0 0) 8 || ipv4InCidr ip (octets 10 0 0 0) 8 ||
    ipv4InCidr ip (octets 172 16 0 0) 12 || ipv4InCidr ip (octets 192 168 0 0) 16 ||
    ipv4InCidr ip (octets 169 254 0 0) 16 || ip == 0 || ipv4InCidr ip (octets 224 0 0 0) 4 ||
    ip == BitVec.allOnes 32 ||
    ipv4InCidr ip (octets 0 0 0 0) 8 || ipv4InCidr ip (octets 100 64 0 0) 10 ||
    ipv4InCidr ip (octets 192 0 0 0) 24 || ipv4InCidr ip (octets 192 0 2 0) 24 ||
    ipv4InCidr ip (octets 198 18 0 0) 15 || ipv4InCidr ip (octets 198 51 100 0) 24 ||
    ipv4InCidr ip (octets 203 0 113 0) 24 || ipv4InCidr ip (octets 240 0 0 0) 4

def toIpv4 (ip : BitVec 128) : Option (BitVec 32) :=
  if ip >>> 32 == 0 || ip >>> 32 == 0xffff then some (ip.setWidth 32) else none

def isNonPublicIpv6 (ip : BitVec 128) : Bool :=
  match toIpv4 ip with
  | some mapped => isNonPublicIpv4 mapped || ip == 1
  -- loopback, unspecified, multicast, unique local and link-local
  | none => ip == 1 || ip == 0 || ip >>> 120 == 0xff || ip >>> 121 == 0x7e || ip >>> 118 == 0x3fa

def isNonPublicIp : IpAddr → Bool
  | v4 ip => isNonPublicIpv4 ip
  | v6 ip => isNonPublicIpv6 ip

def isLoopback : IpAddr → Bool
  | v4 ip => ipv4InCidr ip (octets 127 0 0 0) 8
  | v6 ip => ip == 1

end IpAddr

end Dcode.NetworkProxy
