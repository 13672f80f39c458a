import Epistle.Settings.Datum
import Epistle.Text.Blank

/-!
Where the mail goes out through: a SOCKS proxy, which may want a user to sign in. Signing in needs
a local bridge, which must then be given a number to listen on.
-/

namespace Epistle

structure Proxy where
  remoteHost : Text
  remotePort : Nat
  username : Option Text
  password : Option Text
  bridgePort : Option Nat
  deriving DecidableEq, Repr

namespace Proxy

inductive Fault where
  | emptyHost | zeroPort | passwordMissing | usernameMissing | bridgeMissing | zeroBridge
  deriving DecidableEq, Repr

namespace Fault

def field : Fault → String
  | emptyHost => "remote_host"
  | zeroPort => "remote_port"
  | passwordMissing => "password"
  | usernameMissing => "username"
  | bridgeMissing | zeroBridge => "proxy_bridge_port"

def reason : Fault → String
  | emptyHost => "must not be empty"
  | zeroPort => "must not be zero"
  | passwordMissing => "required when a username is set"
  | usernameMissing => "required when a password is set"
  | bridgeMissing => "required for authenticated proxies"
  | zeroBridge => "must not be zero"

def message (f : Fault) : String :=
  "Invalid proxy configuration for " ++ f.field ++ ": " ++ f.reason

end Fault

def requiresAuthentication (p : Proxy) : Bool := p.username.isSome

/-- What makes the proxy unusable, the first fault first. -/
def fault? (p : Proxy) : Option Fault :=
  if Text.allBlank p.remoteHost then some .emptyHost
  else if p.remotePort = 0 then some .zeroPort
  else
    match p.username, p.password with
    | some _, none => some .passwordMissing
    | none, some _ => some .usernameMissing
    | none, none => none
    | some _, some _ =>
      match p.bridgePort with
      | none => some .bridgeMissing
      | some 0 => some .zeroBridge
      | some _ => none

def names : List Text :=
  ["remote_host", "remote_port", "username", "password", "proxy_bridge_port"].map String.toList

def portNumber? (d : Datum) : Option Nat := d.below? 65536

def ofDatum? (exact : Bool) (d : Datum) : Option Proxy := do
  let fs ← d.fields? exact names 2
  return ⟨← (Datum.field fs "remote_host").bind Datum.text?,
    ← (Datum.field fs "remote_port").bind portNumber?,
    ← Datum.optional Datum.text? (Datum.field fs "username"),
    ← Datum.optional Datum.text? (Datum.field fs "password"),
    ← Datum.optional portNumber? (Datum.field fs "proxy_bridge_port")⟩

def toDatum (p : Proxy) : Datum :=
  .record [("remote_host", .text p.remoteHost), ("remote_port", .int p.remotePort),
    ("username", Datum.ofOption .text p.username), ("password", Datum.ofOption .text p.password),
    ("proxy_bridge_port", Datum.ofOption (fun n : Nat => .int n) p.bridgePort)]

end Proxy
end Epistle
