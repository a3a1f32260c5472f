import Mathlib.Data.Int.Notation
import Mathlib.Data.List.Basic
import Mathlib.Tactic.SplitIfs

/-! The DHCP client of a device (`dhcp.c`).

    A frame goes through a chain of tests on its headers, then its options are read one by one, and only
    then is it known what kind of message it is and whether it counts:

        headers --> options: 53 type, 1 netmask, 3 router, 6 dns, 54 server, ... --> NAK / OFFER / ACK
                             1, 3 and 6 are written to the lease as they come

    Reads go through `data[i]?`, so that a read behind the end of the frame shows as `none`. Addresses are
    kept as they are in memory; only equality counts. Times are in microseconds. -/

namespace EwokOS.Net.Dhcp

inductive State where
  | init
  | selecting
  | requesting
  | bound
  | renewing
  deriving DecidableEq

/-- `dhcp_client_t`. -/
structure Client where
  update : ℤ
  leaseStart : ℤ
  xid : ℕ
  requestedIp : ℕ
  serverId : ℕ
  ip : ℕ
  lastIp : ℕ
  netmask : ℕ
  gateway : ℕ
  dns1 : ℕ
  dns2 : ℕ
  validity : ℤ
  state : State
  retries : ℕ
  renewRetry : ℕ
  deriving DecidableEq

/-- What `ip_iface_update` sets. -/
structure Iface where
  unicast : ℕ
  netmask : ℕ
  gateway : ℕ
  deriving DecidableEq

/-- `DHCP_RETRY_INTERVAL` -/
def retryInterval : ℕ := 3

/-- `DHCP_REQUEST_RETRY_MAX` -/
def requestRetryMax : ℕ := 3

/-- `DHCP_DEFAULT_LEASE` -/
def defaultLease : ℤ := 3600

/-- `DHCP_RENEW_RETRY_MAX` -/
def renewRetryMax : ℕ := 60

/-- `DHCP_OPTION_OFFER`, `DHCP_OPTION_ACK` and `DHCP_OPTION_NAK` -/
def optionOffer : ℕ := 2
def optionAck : ℕ := 5
def optionNak : ℕ := 6

namespace Client

/-- `dhcp_discovery`; `fresh` is what `dhcp_generate_xid` gives. -/
def discovery (now : ℤ) (fresh : ℕ) (c : Client) : Client :=
  { c with xid := fresh, requestedIp := 0, serverId := 0, retries := 0, state := .selecting, update := now }

/-- `dhcp_request`. -/
def request (now : ℤ) (c : Client) : Client :=
  if c.requestedIp = 0 ∨ c.serverId = 0 then c
  else { c with state := .requesting, retries := 0, update := now }

/-- `dhcp_renew`. -/
def renew (now : ℤ) (fresh : ℕ) (c : Client) : Client :=
  if c.ip = 0 then c
  else { c with xid := fresh, state := .renewing, renewRetry := retryInterval, update := now }

/-- `dhcp_reset`. -/
def reset (now : ℤ) (fresh : ℕ) (c : Client) : Client :=
  discovery now fresh { c with
    lastIp := if c.ip ≠ 0 then c.ip else c.lastIp
    requestedIp := 0
    serverId := 0
    ip := 0
    netmask := 0
    gateway := 0
    dns1 := 0
    dns2 := 0
    validity := retryInterval
    state := .init }

/-- `timersub`, in whole seconds. -/
def seconds (now since : ℤ) : ℤ := (now - since) / 1000000

/-- `dhcp_timer`, for one client. -/
def timer (now : ℤ) (fresh : ℕ) (c : Client) : Client :=
  if c.state = .bound ∨ c.state = .renewing then
    if c.validity ≤ seconds now c.leaseStart then c.reset now fresh
    else if c.state = .bound then
      if c.validity.tdiv 2 ≤ seconds now c.leaseStart then c.renew now fresh else c
    else if (c.renewRetry : ℤ) ≤ seconds now c.update then
      { c with
        update := now
        renewRetry := if c.renewRetry < renewRetryMax then min (c.renewRetry * 2) renewRetryMax else c.renewRetry }
    else c
  else if (retryInterval : ℤ) ≤ seconds now c.update then
    if c.state = .requesting ∧ c.requestedIp ≠ 0 ∧ c.serverId ≠ 0 ∧ c.retries < requestRetryMax then
      { c with retries := c.retries + 1, update := now }
    else c.discovery now fresh
  else c

end Client

/-! ### Reading a frame -/

section
variable (data : List UInt8)

def u8 (i : ℕ) : Option ℕ := data[i]?.map UInt8.toNat

/-- `ntoh16` of what is at `i`. -/
def be16 (i : ℕ) : Option ℕ := do
  let a ← u8 data i
  let b ← u8 data (i + 1)
  return a * 256 + b

/-- `ntoh32` of what is at `i`. -/
def be32 (i : ℕ) : Option ℕ := do
  let a ← be16 data i
  let b ← be16 data (i + 2)
  return a * 65536 + b

/-- A 32-bit word as it is in memory. -/
def le32 (i : ℕ) : Option ℕ := do
  let a ← u8 data i
  let b ← u8 data (i + 1)
  let c ← u8 data (i + 2)
  let d ← u8 data (i + 3)
  return a + b * 256 + c * 65536 + d * 16777216

/-- The bytes from `i` on, for `memcmp`. -/
def bytesAt (i n : ℕ) : Option (List UInt8) :=
  if i + n ≤ data.length then some ((data.drop i).take n) else none

/-- What the headers of a frame say, and where its options are. -/
structure Header where
  src : ℕ
  yiaddr : ℕ
  siaddr : ℕ
  off : ℕ
  size : ℕ

/-- The tests of `dhcp_input` before the options: `some none` is a frame that is not looked at further. -/
def header (mac : List UInt8) (xid : ℕ) : Option (Option Header) :=
  if data.length < 20 then some none else do
  let vhl ← u8 data 0
  if vhl / 16 ≠ 4 then some none else do
  let ipHlen := vhl % 16 * 4
  if ipHlen < 20 ∨ data.length < ipHlen + 8 then some none else do
  let ipTotal ← be16 data 2
  if ipTotal < ipHlen + 8 ∨ data.length < ipTotal then some none else do
  let protocol ← u8 data 9
  if protocol ≠ 17 then some none else do
  let udpLen ← be16 data (ipHlen + 4)
  if udpLen < 8 + 240 then some none else
  if data.length < ipHlen + udpLen then some none else do
  let port ← be16 data ipHlen
  if port ≠ 67 then some none else do
  let dhcp := ipHlen + 8
  let opcode ← u8 data dhcp
  if opcode ≠ 2 then some none else do
  let hlen ← u8 data (dhcp + 2)
  if hlen ≠ 6 then some none else do
  let chaddr ← bytesAt data (dhcp + 28) 6
  if chaddr ≠ mac then some none else do
  let id ← be32 data (dhcp + 4)
  if id ≠ xid then some none else do
  let cookie ← be32 data (dhcp + 236)
  if cookie ≠ 0x63825363 then some none else do
  let src ← le32 data 12
  let yiaddr ← le32 data (dhcp + 16)
  let siaddr ← le32 data (dhcp + 20)
  some (some ⟨src, yiaddr, siaddr, dhcp + 240, udpLen - 8 - 240⟩)

/-- The loop over the options; `f` is the `switch` on the code of an option, and the last component says
    whether the loop has come to `done`. There are at least as many rounds left as bytes. -/
def options {α : Type} (f : ℕ → ℕ → ℕ → α → Option α) : ℕ → ℕ → ℕ → α → Option (α × Bool)
  | 0, _, _, r => some (r, true)
  | k + 1, off, size, r =>
    if size = 0 then some (r, true) else do
    let code ← u8 data off
    if code = 0 then options f k (off + 1) (size - 1) r
    else if code = 255 then some (r, true)
    else if size < 2 then some (r, false)
    else do
    let optLen ← u8 data (off + 1)
    if size < optLen + 2 then some (r, false)
    else do
    let r ← f off code optLen r
    options f k (off + optLen + 2) (size - (optLen + 2)) r

/-- The local variables of `dhcp_input` the options go to. -/
structure Notes where
  dhcpType : ℕ
  serverId : ℕ
  requestedIp : ℕ
  leaseTime : ℤ

/-- A word as an `int`. -/
def toInt32 (n : ℕ) : ℤ := if n < 2147483648 then n else n - 4294967296

/-- The `switch` on the code of an option. -/
def takeOption (off code optLen : ℕ) (r : Client × Notes) : Option (Client × Notes) :=
  if code = 53 then
    if 1 ≤ optLen then (u8 data (off + 2)).map fun v => (r.1, { r.2 with dhcpType := v }) else some r
  else if optLen < 4 then some r
  else if code = 51 then (be32 data (off + 2)).map fun v => (r.1, { r.2 with leaseTime := toInt32 v })
  else if code = 3 then (le32 data (off + 2)).map fun v => ({ r.1 with gateway := v }, r.2)
  else if code = 1 then (le32 data (off + 2)).map fun v => ({ r.1 with netmask := v }, r.2)
  else if code = 6 then (le32 data (off + 2)).map fun v => ({ r.1 with dns1 := v }, r.2)
  else if code = 54 then (le32 data (off + 2)).map fun v => (r.1, { r.2 with serverId := v })
  else if code = 50 then (le32 data (off + 2)).map fun v => (r.1, { r.2 with requestedIp := v })
  else some r

end

/-! ### What a message does -/

/-- The address an ACK gives. -/
def Client.ackIp (c : Client) (yiaddr : ℕ) : ℕ :=
  if yiaddr ≠ 0 then yiaddr else if c.state = .renewing then c.ip else c.requestedIp

/-- The part of `dhcp_input` behind `done`; `old` is the client when the frame came in. -/
def handle (now : ℤ) (fresh : ℕ) (old : Client) (h : Header) (o : Notes) (c : Client) (f : Iface) : Client × Iface :=
  if o.dhcpType = optionNak then
    if c.state = .selecting then (c, f)
    else if c.serverId ≠ 0 ∧ o.serverId ≠ c.serverId ∧ h.src ≠ c.serverId then (c, f)
    else (Client.reset now fresh { c with update := now }, f)
  else if o.dhcpType = optionOffer then
    if c.state ≠ .selecting then (c, f)
    else
      let c := { c with
        requestedIp := if h.yiaddr ≠ 0 then h.yiaddr else o.requestedIp
        serverId := if o.serverId ≠ 0 then o.serverId else h.siaddr }
      if c.requestedIp = 0 ∨ c.serverId = 0 then (c, f)
      else (Client.request now { c with update := now }, f)
  else if o.dhcpType ≠ optionAck then (c, f)
  else if c.state ≠ .requesting ∧ c.state ≠ .selecting ∧ c.state ≠ .renewing then (c, f)
  else if c.state ≠ .renewing ∧ o.serverId ≠ 0 ∧ c.serverId ≠ 0 ∧ o.serverId ≠ c.serverId then (c, f)
  else
    let c := { c with ip := c.ackIp h.yiaddr }
    if c.ip = 0 then (c, f)
    else
      let c := { c with
        serverId := if o.serverId ≠ 0 then o.serverId else c.serverId
        lastIp := c.ip
        validity := if 0 < o.leaseTime then o.leaseTime else if c.state ≠ .renewing then defaultLease else c.validity
        state := .bound
        update := now
        leaseStart := now }
      (c, if c.ip ≠ old.ip ∨ c.netmask ≠ old.netmask ∨ c.gateway ≠ old.gateway then ⟨c.ip, c.netmask, c.gateway⟩ else f)

/-- `dhcp_input`, on a frame for the device with the address `mac`. -/
def input (mac : List UInt8) (now : ℤ) (fresh : ℕ) (data : List UInt8) (c : Client) (f : Iface) :
    Option (Client × Iface) := do
  match ← header data mac c.xid with
  | none => some (c, f)
  | some h =>
    let ((c', o), complete) ← options data (takeOption data) h.size h.off h.size (c, ⟨0, 0, 0, 0⟩)
    if complete then some (handle now fresh c h o c' f) else some (c', f)

end EwokOS.Net.Dhcp
