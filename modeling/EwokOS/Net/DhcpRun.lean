import EwokOS.Net.Dhcp
import EwokOS.Schemes.Run

/-! What a DHCP message leaves when it is refused, and what an interface goes by.

    What the options of a frame say does not depend on the client, so a frame is heard first and then
    answered (`input_eq`). The netmask, the router and the name server it names are in the lease by then,
    whatever becomes of it:

        hear --> m:  complete?  type, state and server right?     yes: `Takes c m`
                       `--- no ------`---- no --> refused, and `c.store m.writes` is left

    So a refused message changes nothing only if it is `Harmless`. In a run where all refused ones are, and
    an ACK that ends a discovery names the netmask and the router if an offer has, the interface has what the
    last ACK of the lease said. -/

namespace EwokOS.Net.Dhcp

open Schemes

/-! ### Reads stay inside the frame -/

section
variable {data : List UInt8} {i : ℕ}

theorem u8_some (h : i < data.length) : ∃ v, u8 data i = some v :=
  ⟨data[i].toNat, by rw [u8, List.getElem?_eq_getElem h]; rfl⟩

theorem be16_some (h : i + 1 < data.length) : ∃ v, be16 data i = some v := by
  obtain ⟨a, ha⟩ := u8_some (show i < data.length by omega)
  obtain ⟨b, hb⟩ := u8_some h
  exact ⟨a * 256 + b, by simp [be16, ha, hb]⟩

theorem be32_some (h : i + 3 < data.length) : ∃ v, be32 data i = some v := by
  obtain ⟨a, ha⟩ := be16_some (show i + 1 < data.length by omega)
  obtain ⟨b, hb⟩ := be16_some (show i + 2 + 1 < data.length by omega)
  exact ⟨a * 65536 + b, by simp [be32, ha, hb]⟩

theorem le32_some (h : i + 3 < data.length) : ∃ v, le32 data i = some v := by
  obtain ⟨a, ha⟩ := u8_some (show i < data.length by omega)
  obtain ⟨b, hb⟩ := u8_some (show i + 1 < data.length by omega)
  obtain ⟨c, hc⟩ := u8_some (show i + 2 < data.length by omega)
  obtain ⟨d, hd⟩ := u8_some h
  exact ⟨a + b * 256 + c * 65536 + d * 16777216, by simp [le32, ha, hb, hc, hd]⟩

theorem bytesAt_some {n : ℕ} (h : i + n ≤ data.length) : bytesAt data i n = some ((data.drop i).take n) := if_pos h

/-- The headers have been read inside the frame, and the options they leave are in it. -/
def Inside (data : List UInt8) (r : Option (Option Header)) : Prop :=
  ∃ x, r = some x ∧ ∀ h, x = some h → h.off + h.size ≤ data.length

theorem inside_test {c : Prop} [Decidable c] {r : Option (Option Header)} (h : ¬c → Inside data r) :
    Inside data (if c then some none else r) := by
  by_cases hc : c
  · rw [if_pos hc]
    exact ⟨none, rfl, fun _ he => by cases he⟩
  · rw [if_neg hc]
    exact h hc

theorem inside_read {β : Type} {o : Option β} {g : β → Option (Option Header)} (h : ∃ v, o = some v)
    (hg : ∀ v, Inside data (g v)) : Inside data (o >>= g) := by
  obtain ⟨v, rfl⟩ := h
  exact hg v

theorem header_inside (mac : List UInt8) (xid : ℕ) : Inside data (header data mac xid) := by
  refine inside_test fun h20 => ?_
  refine inside_read (u8_some (by omega)) fun vhl => inside_test fun _ => ?_
  refine inside_test fun hip => ?_
  refine inside_read (be16_some (by omega)) fun ipTotal => inside_test fun _ => ?_
  refine inside_read (u8_some (by omega)) fun protocol => inside_test fun _ => ?_
  refine inside_read (be16_some (by omega)) fun udpLen => inside_test fun hmin => inside_test fun hlen => ?_
  refine inside_read (be16_some (by omega)) fun port => inside_test fun _ => ?_
  refine inside_read (u8_some (by omega)) fun opcode => inside_test fun _ => ?_
  refine inside_read (u8_some (by omega)) fun hlen' => inside_test fun _ => ?_
  refine inside_read ⟨_, bytesAt_some (by omega)⟩ fun chaddr => inside_test fun _ => ?_
  refine inside_read (be32_some (by omega)) fun id => inside_test fun _ => ?_
  refine inside_read (be32_some (by omega)) fun cookie => inside_test fun _ => ?_
  refine inside_read (le32_some (by omega)) fun src => ?_
  refine inside_read (le32_some (by omega)) fun yiaddr => ?_
  refine inside_read (le32_some (by omega)) fun siaddr => ?_
  refine ⟨_, rfl, fun h he => ?_⟩
  cases he
  dsimp only
  omega

section
variable {α β : Type} {f : ℕ → ℕ → ℕ → α → Option α} {g : ℕ → ℕ → ℕ → β → Option β}

/-- The loop reads inside the frame when the `switch` does. -/
theorem options_some (hf : ∀ off code optLen r, off + optLen + 2 ≤ data.length → ∃ r', f off code optLen r = some r')
    (k : ℕ) {off size : ℕ} (r : α) (h : off + size ≤ data.length) : ∃ r', options data f k off size r = some r' := by
  induction k generalizing off size r with
  | zero => exact ⟨(r, true), rfl⟩
  | succ k ih =>
    unfold options
    split
    · exact ⟨_, rfl⟩
    obtain ⟨code, hcode⟩ := u8_some (show off < data.length by omega)
    simp only [hcode, Option.bind_eq_bind, Option.bind_some]
    split
    · exact ih r (by omega)
    split
    · exact ⟨_, rfl⟩
    split
    · exact ⟨_, rfl⟩
    obtain ⟨optLen, hlen⟩ := u8_some (show off + 1 < data.length by omega)
    simp only [hlen, Option.bind_some]
    split
    · exact ⟨_, rfl⟩
    obtain ⟨r', hr⟩ := hf off code optLen r (by omega)
    simp only [hr, Option.bind_some]
    exact ih r' (by omega)

/-- Two loops whose `switch`es go together. -/
theorem options_map {φ : α → β}
    (hfg : ∀ off code optLen a, g off code optLen (φ a) = (f off code optLen a).map φ) (k : ℕ) {off size : ℕ} (a : α) :
    options data g k off size (φ a) = (options data f k off size a).map fun r => (φ r.1, r.2) := by
  induction k generalizing off size a with
  | zero => rfl
  | succ k ih =>
    unfold options
    split
    · rfl
    cases u8 data off with
    | none => rfl
    | some code =>
      simp only [Option.bind_eq_bind, Option.bind_some]
      split
      · exact ih a
      split
      · rfl
      split
      · rfl
      cases u8 data (off + 1) with
      | none => rfl
      | some optLen =>
        simp only [Option.bind_some]
        split
        · rfl
        rw [hfg]
        cases f off code optLen a with
        | none => rfl
        | some a' =>
          rw [Option.map_some, Option.bind_some, Option.bind_some]
          exact ih a'

end
end

/-! ### What a frame says -/

/-- The values the options bring for the lease. -/
structure Writes where
  gateway : Option ℕ
  netmask : Option ℕ
  dns1 : Option ℕ

def Client.store (c : Client) (w : Writes) : Client :=
  { c with
    gateway := w.gateway.getD c.gateway
    netmask := w.netmask.getD c.netmask
    dns1 := w.dns1.getD c.dns1 }

section
variable (c : Client) (w : Writes)

@[simp] theorem store_state : (c.store w).state = c.state := rfl
@[simp] theorem store_serverId : (c.store w).serverId = c.serverId := rfl
end

/-- The `switch` on the code of an option, without a client. -/
def noteOption (data : List UInt8) (off code optLen : ℕ) (r : Writes × Notes) : Option (Writes × Notes) :=
  if code = 53 then
    if 1 ≤ optLen then (u8 data (off + 2)).map fun v => (r.1, { r.2 with dhcpType := v }) else some r
  else if optLen < 4 then some r
  else if code = 51 then (be32 data (off + 2)).map fun v => (r.1, { r.2 with leaseTime := toInt32 v })
  else if code = 3 then (le32 data (off + 2)).map fun v => ({ r.1 with gateway := some v }, r.2)
  else if code = 1 then (le32 data (off + 2)).map fun v => ({ r.1 with netmask := some v }, r.2)
  else if code = 6 then (le32 data (off + 2)).map fun v => ({ r.1 with dns1 := some v }, r.2)
  else if code = 54 then (le32 data (off + 2)).map fun v => (r.1, { r.2 with serverId := v })
  else if code = 50 then (le32 data (off + 2)).map fun v => (r.1, { r.2 with requestedIp := v })
  else some r

section
variable {data : List UInt8}

theorem noteOption_some (off code optLen : ℕ) (r : Writes × Notes) (h : off + optLen + 2 ≤ data.length) :
    ∃ r', noteOption data off code optLen r = some r' := by
  unfold noteOption
  split
  · split
    · obtain ⟨v, hv⟩ := u8_some (show off + 2 < data.length by omega)
      exact ⟨_, by rw [hv]; rfl⟩
    · exact ⟨r, rfl⟩
  split
  · exact ⟨r, rfl⟩
  obtain ⟨v, hv⟩ := le32_some (show off + 2 + 3 < data.length by omega)
  obtain ⟨b, hb⟩ := be32_some (show off + 2 + 3 < data.length by omega)
  rw [hv, hb]
  split_ifs <;> exact ⟨_, rfl⟩

theorem takeOption_store (c : Client) (off code optLen : ℕ) (r : Writes × Notes) :
    takeOption data off code optLen (c.store r.1, r.2) =
      (noteOption data off code optLen r).map fun r => (c.store r.1, r.2) := by
  unfold takeOption noteOption
  split_ifs
  all_goals
    first
      | rfl
      | (rw [Option.map_map]; rfl)

end

/-- What a frame says: its headers, its options, and whether they were read to the end. -/
structure Msg where
  header : Header
  writes : Writes
  notes : Notes
  complete : Bool

/-- The message in a frame, if the frame is one for the client. -/
def hear (mac : List UInt8) (xid : ℕ) (data : List UInt8) : Option Msg :=
  (header data mac xid).join.bind fun h =>
    (options data (noteOption data) h.size h.off h.size (⟨none, none, none⟩, ⟨0, 0, 0, 0⟩)).map fun r =>
      ⟨h, r.1.1, r.1.2, r.2⟩

/-- What the client makes of it. -/
def respond (now : ℤ) (fresh : ℕ) (c : Client) (f : Iface) (m : Msg) : Client × Iface :=
  if m.complete then handle now fresh c m.header m.notes (c.store m.writes) f else (c.store m.writes, f)

theorem input_eq (mac : List UInt8) (now : ℤ) (fresh : ℕ) (data : List UInt8) (c : Client) (f : Iface) :
    input mac now fresh data c f = some ((hear mac c.xid data).elim (c, f) (respond now fresh c f)) := by
  obtain ⟨r, hr, hin⟩ : Inside data (header data mac c.xid) := header_inside mac c.xid
  cases r with
  | none => simp [input, hear, hr]
  | some h =>
    obtain ⟨⟨⟨w, o⟩, b⟩, hw⟩ := options_some noteOption_some h.size (⟨none, none, none⟩, ⟨0, 0, 0, 0⟩) (hin h rfl)
    have hopt := @options_map data _ _ (noteOption data) _ _ (takeOption_store c) h.size h.off h.size
      (⟨none, none, none⟩, ⟨0, 0, 0, 0⟩)
    have hstore : c.store ⟨none, none, none⟩ = c := rfl
    rw [hw, Option.map_some, hstore] at hopt
    dsimp only at hopt
    simp only [input, hear, hr, hopt, hw, Option.bind_eq_bind, Option.bind_some, Option.join_some, Option.map_some,
      Option.elim]
    cases b <;> rfl

/-! ### Which messages count -/

def Client.offerIp (m : Msg) : ℕ := if m.header.yiaddr ≠ 0 then m.header.yiaddr else m.notes.requestedIp

def Client.offerServer (m : Msg) : ℕ := if m.notes.serverId ≠ 0 then m.notes.serverId else m.header.siaddr

/-- A NAK of the lessor, not while a server is still looked for. -/
def Client.TakesNak (c : Client) (m : Msg) : Prop :=
  m.notes.dhcpType = optionNak ∧ c.state ≠ .selecting ∧
    (c.serverId = 0 ∨ m.notes.serverId = c.serverId ∨ m.header.src = c.serverId)

/-- An OFFER while a server is looked for, of an address and from a server. -/
def Client.TakesOffer (c : Client) (m : Msg) : Prop :=
  m.notes.dhcpType = optionOffer ∧ c.state = .selecting ∧ offerIp m ≠ 0 ∧ offerServer m ≠ 0

/-- An ACK in a state where one is waited for, and from the right server. -/
def Client.AckDue (c : Client) (m : Msg) : Prop :=
  m.notes.dhcpType = optionAck ∧ (c.state = .requesting ∨ c.state = .selecting ∨ c.state = .renewing) ∧
    (c.state = .renewing ∨ m.notes.serverId = 0 ∨ c.serverId = 0 ∨ m.notes.serverId = c.serverId)

def Client.TakesAck (c : Client) (m : Msg) : Prop := c.AckDue m ∧ c.ackIp m.header.yiaddr ≠ 0

/-- The message passes all tests of its type. -/
def Client.Takes (c : Client) (m : Msg) : Prop :=
  m.complete = true ∧ (c.TakesNak m ∨ c.TakesOffer m ∨ c.TakesAck m)

instance (c : Client) (m : Msg) : Decidable (c.TakesNak m) := inferInstanceAs (Decidable (_ ∧ _ ∧ _))
instance (c : Client) (m : Msg) : Decidable (c.TakesOffer m) := inferInstanceAs (Decidable (_ ∧ _ ∧ _))
instance (c : Client) (m : Msg) : Decidable (c.AckDue m) := inferInstanceAs (Decidable (_ ∧ _ ∧ _))
instance (c : Client) (m : Msg) : Decidable (c.TakesAck m) := inferInstanceAs (Decidable (_ ∧ _))
instance (c : Client) (m : Msg) : Decidable (c.Takes m) := inferInstanceAs (Decidable (_ ∧ _))

/-- The values the message would leave in the lease if it is refused are those that are there: its netmask,
    router and name server, the server of an OFFER without an address, and no address of an ACK without one. -/
structure Client.Harmless (c : Client) (m : Msg) : Prop where
  writes : c.store m.writes = c
  offer : m.complete = true → m.notes.dhcpType = optionOffer → c.state = .selecting → offerServer m = c.serverId
  ack : m.complete = true → c.AckDue m → c.ip = 0 ∨ c.state = .renewing

/-- The lease and the interface are as they were; the address last asked for is not part of the lease. -/
def Untouched (c : Client) (f : Iface) (r : Client × Iface) : Prop :=
  { r.1 with requestedIp := c.requestedIp } = c ∧ r.2 = f

section
variable {now : ℤ} {fresh : ℕ} {c : Client} {f : Iface} {m : Msg}

theorem respond_incomplete (hm : m.complete = false) : respond now fresh c f m = (c.store m.writes, f) := by
  rw [respond, hm]
  rfl

theorem respond_complete (hm : m.complete = true) :
    respond now fresh c f m = handle now fresh c m.header m.notes (c.store m.writes) f := by
  rw [respond, hm]
  rfl

theorem respond_nak (hm : m.complete = true) (h : c.TakesNak m) :
    respond now fresh c f m = (Client.reset now fresh { c.store m.writes with update := now }, f) := by
  obtain ⟨ht, hs, hsrv⟩ := h
  have hlessor : ¬(c.serverId ≠ 0 ∧ m.notes.serverId ≠ c.serverId ∧ m.header.src ≠ c.serverId) := by
    rintro ⟨h0, h1, h2⟩
    rcases hsrv with hsrv | hsrv | hsrv
    · exact h0 hsrv
    · exact h1 hsrv
    · exact h2 hsrv
  rw [respond_complete hm, handle, if_pos ht, store_state, if_neg hs, store_serverId, if_neg hlessor]
  rfl

theorem respond_offer (hm : m.complete = true) (h : c.TakesOffer m) :
    respond now fresh c f m = ({ c.store m.writes with
      requestedIp := Client.offerIp m, serverId := Client.offerServer m, state := .requesting, retries := 0,
      update := now }, f) := by
  obtain ⟨ht, hs, hip, hsrv⟩ := h
  have hnak : m.notes.dhcpType ≠ optionNak := by rw [ht]; decide
  have hgiven : ¬(Client.offerIp m = 0 ∨ Client.offerServer m = 0) := not_or.mpr ⟨hip, hsrv⟩
  rw [respond_complete hm, handle, if_neg hnak, if_pos ht, store_state, if_neg (not_not.mpr hs)]
  refine (if_neg hgiven).trans (Prod.ext ?_ rfl)
  exact if_neg hgiven

/-- What an ACK that counts makes of the client. -/
def Client.acked (now : ℤ) (c : Client) (m : Msg) : Client :=
  { c.store m.writes with
    ip := c.ackIp m.header.yiaddr
    serverId := if m.notes.serverId ≠ 0 then m.notes.serverId else c.serverId
    lastIp := c.ackIp m.header.yiaddr
    validity :=
      if 0 < m.notes.leaseTime then m.notes.leaseTime else if c.state ≠ .renewing then defaultLease else c.validity
    state := .bound
    update := now
    leaseStart := now }

theorem ackDue_tests (h : c.AckDue m) : ¬(c.state ≠ .requesting ∧ c.state ≠ .selecting ∧ c.state ≠ .renewing) ∧
    ¬(c.state ≠ .renewing ∧ m.notes.serverId ≠ 0 ∧ c.serverId ≠ 0 ∧ m.notes.serverId ≠ c.serverId) := by
  obtain ⟨-, hs, hsrv⟩ := h
  refine ⟨fun ⟨h1, h2, h3⟩ => ?_, fun ⟨h1, h2, h3, h4⟩ => ?_⟩
  · rcases hs with hs | hs | hs
    · exact h1 hs
    · exact h2 hs
    · exact h3 hs
  · rcases hsrv with hsrv | hsrv | hsrv | hsrv
    · exact h1 hsrv
    · exact h2 hsrv
    · exact h3 hsrv
    · exact h4 hsrv

theorem respond_due (hm : m.complete = true) (h : c.AckDue m) : respond now fresh c f m =
    if c.ackIp m.header.yiaddr = 0 then ({ c.store m.writes with ip := c.ackIp m.header.yiaddr }, f)
    else (c.acked now m, if (c.acked now m).ip ≠ c.ip ∨ (c.acked now m).netmask ≠ c.netmask ∨
        (c.acked now m).gateway ≠ c.gateway then
      ⟨(c.acked now m).ip, (c.acked now m).netmask, (c.acked now m).gateway⟩ else f) := by
  have hnak : m.notes.dhcpType ≠ optionNak := by rw [h.1]; decide
  have hoffer : m.notes.dhcpType ≠ optionOffer := by rw [h.1]; decide
  have hack : ¬m.notes.dhcpType ≠ optionAck := not_not.mpr h.1
  obtain ⟨hstate, hserver⟩ := ackDue_tests h
  rw [respond_complete hm, handle, if_neg hnak, if_neg hoffer, if_neg hack, store_state, store_serverId]
  rw [if_neg hstate, if_neg hserver]
  rfl

/-- A message that is refused for its type, its state or its server leaves what its options say. -/
theorem respond_refused (hm : m.complete = true) (hn : ¬c.TakesNak m)
    (ho : ¬(m.notes.dhcpType = optionOffer ∧ c.state = .selecting)) (ha : ¬c.AckDue m) :
    respond now fresh c f m = (c.store m.writes, f) := by
  rw [respond_complete hm, handle]
  split
  · rename_i ht
    split
    · rfl
    · rename_i hs
      split
      · rfl
      · rename_i hsrv
        refine absurd ⟨ht, hs, ?_⟩ hn
        by_contra hno
        obtain ⟨h0, h1, h2⟩ := by simpa only [not_or] using hno
        exact hsrv ⟨h0, h1, h2⟩
  · split
    · rename_i ht
      split
      · rfl
      · rename_i hs
        exact absurd ⟨ht, not_not.mp hs⟩ ho
    · split
      · rfl
      · rename_i ht
        split
        · rfl
        · rename_i hs
          split
          · rfl
          · rename_i hsrv
            refine absurd ⟨not_not.mp ht, ?_, ?_⟩ ha
            · by_contra hno
              obtain ⟨h0, h1, h2⟩ := by simpa only [not_or] using hno
              exact hs ⟨h0, h1, h2⟩
            · by_contra hno
              obtain ⟨h0, h1, h2, h3⟩ := by simpa only [not_or] using hno
              exact hsrv ⟨h0, h1, h2, h3⟩

/-- A refused message leaves the lease as it is just when it is harmless. -/
theorem refused_iff (h : ¬c.Takes m) : Untouched c f (respond now fresh c f m) ↔ c.Harmless m := by
  have hstore : { c.store m.writes with requestedIp := c.requestedIp } = c.store m.writes := rfl
  cases hm : m.complete with
  | false =>
    rw [respond_incomplete hm, Untouched]
    dsimp only
    rw [hstore]
    refine ⟨fun hu => ⟨hu.1, ?_, ?_⟩, fun hh => ⟨hh.writes, rfl⟩⟩
    · rw [hm]
      exact fun hb => (by cases hb)
    · rw [hm]
      exact fun hb => (by cases hb)
  | true =>
    have hn : ¬c.TakesNak m := fun hn => h ⟨hm, .inl hn⟩
    by_cases ha : c.AckDue m
    · -- an ACK that is due is refused only for want of an address
      have h0 : c.ackIp m.header.yiaddr = 0 := by
        by_contra h0
        exact h ⟨hm, .inr (.inr ⟨ha, h0⟩)⟩
      have hne : m.notes.dhcpType ≠ optionOffer := by rw [ha.1]; decide
      rw [respond_due hm ha, if_pos h0, h0, Untouched]
      dsimp only
      constructor
      · rintro ⟨hu, -⟩
        have hip : c.ip = 0 := (congrArg Client.ip hu).symm
        refine ⟨?_, fun _ ht _ => absurd ht hne, fun _ _ => .inl hip⟩
        have hip' : c.store m.writes = { c.store m.writes with requestedIp := c.requestedIp, ip := c.ip } := rfl
        rw [hip', hip]
        exact hu
      · intro hh
        have hip : c.ip = 0 := by
          rcases hh.ack hm ha with hip | hs
          · exact hip
          · rw [Client.ackIp] at h0
            split at h0
            · contradiction
            · exact h0
        refine ⟨?_, rfl⟩
        rw [hh.writes, ← hip]
    · by_cases ho : m.notes.dhcpType = optionOffer ∧ c.state = .selecting
      · have hrefused : Client.offerIp m = 0 ∨ Client.offerServer m = 0 := by
          by_contra hno
          obtain ⟨h1, h2⟩ := not_or.mp hno
          exact h ⟨hm, .inr (.inl ⟨ho.1, ho.2, h1, h2⟩)⟩
        have hnak : m.notes.dhcpType ≠ optionNak := by rw [ho.1]; decide
        have hr : respond now fresh c f m =
            ({ c.store m.writes with requestedIp := Client.offerIp m, serverId := Client.offerServer m }, f) := by
          rw [respond_complete hm, handle, if_neg hnak, if_pos ho.1, store_state, if_neg (not_not.mpr ho.2)]
          exact if_pos hrefused
        rw [hr, Untouched]
        dsimp only
        constructor
        · rintro ⟨hu, -⟩
          have hsrv : Client.offerServer m = c.serverId := congrArg Client.serverId hu
          rw [hsrv] at hu
          exact ⟨hu, fun _ _ _ => hsrv, fun _ ha' => absurd ha' ha⟩
        · intro hh
          refine ⟨?_, rfl⟩
          rw [hh.offer hm ho.1 ho.2, hh.writes]
      · rw [respond_refused hm hn ho ha, Untouched]
        dsimp only
        rw [hstore]
        refine ⟨fun hu => ⟨hu.1, fun _ ht hs => absurd ⟨ht, hs⟩ ho, fun _ ha' => absurd ha' ha⟩, fun hh => ⟨hh.writes, rfl⟩⟩

end

/-! ### Runs -/

/-- A client and its interface, with what the last ACK of the lease has said. -/
structure World where
  client : Client
  iface : Iface
  acked : Iface

inductive Op where
  | frame (now : ℤ) (fresh : ℕ) (data : List UInt8)
  | tick (now : ℤ) (fresh : ℕ)

/-- There is a lease. -/
def State.leased (s : State) : Bool := s = .bound || s = .renewing

namespace World
variable (mac : List UInt8)

/-- What an ACK says about the interface: where it leaves a value out, that of the ACK before. -/
def said (w : World) (m : Msg) : Iface where
  unicast :=
    if m.header.yiaddr ≠ 0 then m.header.yiaddr
    else if w.client.state = .renewing then w.acked.unicast else w.client.requestedIp
  netmask := m.writes.netmask.getD w.acked.netmask
  gateway := m.writes.gateway.getD w.acked.gateway

/-- An ACK that counts has come in. -/
def takesAck (w : World) (m : Msg) : Bool := m.complete && decide (w.client.TakesAck m)

/-- The record of the last ACK, which lasts as long as the lease. -/
def book (w : World) (m : Option Msg) (s : State) : Iface :=
  if s.leased then m.elim w.acked fun m => if w.takesAck m then w.said m else w.acked else ⟨0, 0, 0⟩

def step (w : World) : Op → Option World
  | .frame now fresh data =>
    (input mac now fresh data w.client w.iface).map fun r =>
      ⟨r.1, r.2, w.book (hear mac w.client.xid data) r.1.state⟩
  | .tick now fresh =>
    let c := w.client.timer now fresh
    some ⟨c, w.iface, w.book none c.state⟩

/-- `dhcp_run`: a new client, and an interface as it has been set up. -/
def start (now : ℤ) (f : Iface) : World where
  client := ⟨now, now, 0, 0, 0, 0, 0, 0, 0, 0, 0, retryInterval, .init, 0, 0⟩
  iface := f
  acked := ⟨0, 0, 0⟩

/-- A frame is harmless unless it counts, and an ACK that ends a discovery names the netmask and the router,
    unless no offer has named any. -/
def Ok (w : World) : Op → Prop
  | .tick _ _ => True
  | .frame _ _ data => ∀ m, hear mac w.client.xid data = some m →
      (w.client.Takes m ∨ w.client.Harmless m) ∧
      (w.takesAck m = true → w.client.state ≠ .renewing →
        (m.writes.netmask.isSome = true ∨ w.client.netmask = 0) ∧
        (m.writes.gateway.isSome = true ∨ w.client.gateway = 0))

/-- The lease, the record and the interface agree; without a lease there is no address. -/
structure Inv (w : World) : Prop where
  free : w.client.state.leased = false → w.client.ip = 0 ∧ w.acked = ⟨0, 0, 0⟩
  held : w.client.state.leased = true →
    w.acked = ⟨w.client.ip, w.client.netmask, w.client.gateway⟩ ∧ w.iface = w.acked

variable {mac} {w : World} {now : ℤ} {fresh : ℕ}

theorem book_free {m : Option Msg} {s : State} (hs : s.leased = false) : w.book m s = ⟨0, 0, 0⟩ := by
  rw [book, hs]
  rfl

theorem book_none {s : State} (hs : s.leased = true) : w.book none s = w.acked := by
  rw [book, hs]
  rfl

theorem book_some {m : Msg} {s : State} (hs : s.leased = true) :
    w.book (some m) s = if w.takesAck m then w.said m else w.acked := by
  rw [book, hs]
  rfl

/-- A client without a lease stays one. -/
theorem Inv.of_free {c : Client} {f : Iface} {m : Option Msg} (hs : c.state.leased = false) (hip : c.ip = 0) :
    Inv ⟨c, f, w.book m c.state⟩ :=
  ⟨fun _ => ⟨hip, book_free hs⟩, fun h => absurd (hs.symm.trans h) Bool.false_ne_true⟩

/-- Nothing but the address last asked for has changed. -/
theorem Inv.untouched (h : Inv w) {r : Client × Iface} (hr : Untouched w.client w.iface r) {m : Option Msg}
    (hm : ∀ m', m = some m' → w.takesAck m' = false) : Inv ⟨r.1, r.2, w.book m r.1.state⟩ := by
  obtain ⟨hc, hf⟩ := hr
  have hstate : r.1.state = w.client.state := (congrArg Client.state hc :)
  have hip : r.1.ip = w.client.ip := (congrArg Client.ip hc :)
  have hmask : r.1.netmask = w.client.netmask := (congrArg Client.netmask hc :)
  have hgate : r.1.gateway = w.client.gateway := (congrArg Client.gateway hc :)
  have hbook : w.client.state.leased = true → w.book m w.client.state = w.acked := by
    intro hs
    cases m with
    | none => exact book_none hs
    | some m =>
      rw [book_some hs, hm m rfl]
      rfl
  refine ⟨fun hs => ?_, fun hs => ?_⟩
  · dsimp only at hs ⊢
    rw [hstate] at hs ⊢
    exact ⟨hip.trans (h.free hs).1, book_free hs⟩
  · dsimp only at hs ⊢
    rw [hstate] at hs ⊢
    rw [hbook hs, hip, hmask, hgate, hf]
    exact h.held hs

/-- An ACK that counts. -/
theorem Inv.ack (h : Inv w) {m : Msg} (hm : m.complete = true) (ha : w.client.TakesAck m)
    (hok : w.client.state ≠ .renewing → (m.writes.netmask.isSome = true ∨ w.client.netmask = 0) ∧
      (m.writes.gateway.isSome = true ∨ w.client.gateway = 0)) :
    Inv ⟨(respond now fresh w.client w.iface m).1, (respond now fresh w.client w.iface m).2,
      w.book (some m) (respond now fresh w.client w.iface m).1.state⟩ := by
  rw [respond_due hm ha.1, if_neg ha.2]
  have htakes : w.takesAck m = true := by
    rw [takesAck, hm, decide_eq_true ha]
    rfl
  have hbook : w.book (some m) (w.client.acked now m).state = w.said m := by
    rw [book_some rfl, htakes]
    rfl
  have hkept : ∀ {o : Option ℕ} {v : ℕ}, o.isSome = true ∨ v = 0 → o.getD v = o.getD 0 := by
    rintro (_ | a) v ho
    · simpa using ho
    · rfl
  have hsaid : w.said m =
      ⟨(w.client.acked now m).ip, (w.client.acked now m).netmask, (w.client.acked now m).gateway⟩ := by
    by_cases hs : w.client.state = .renewing
    · obtain ⟨hacked, -⟩ := h.held (by rw [hs]; rfl)
      simp only [said, Client.acked, Client.store, Client.ackIp, hs, if_true, hacked]
    · have hfree : w.client.state.leased = false := by
        rcases ha.1.2.1 with hs' | hs' | hs'
        · rw [hs']
          rfl
        · rw [hs']
          rfl
        · exact absurd hs' hs
      obtain ⟨hmask, hgate⟩ := hok hs
      simp only [said, Client.acked, Client.store, Client.ackIp, hs, if_false, (h.free hfree).2, hkept hmask, hkept hgate]
  have hiface : (if (w.client.acked now m).ip ≠ w.client.ip ∨ (w.client.acked now m).netmask ≠ w.client.netmask ∨
      (w.client.acked now m).gateway ≠ w.client.gateway then
      (⟨(w.client.acked now m).ip, (w.client.acked now m).netmask, (w.client.acked now m).gateway⟩ : Iface)
      else w.iface) = w.said m := by
    split
    · exact hsaid.symm
    · rename_i hsame
      simp only [not_or, not_not] at hsame
      obtain ⟨hip, hmask, hgate⟩ := hsame
      have hleased : w.client.state.leased = true := by
        by_contra hno
        have h0 := (h.free (Bool.eq_false_iff.mpr hno)).1
        exact ha.2 (hip.trans h0)
      obtain ⟨hacked, hif⟩ := h.held hleased
      rw [hsaid, hip, hmask, hgate, hif, hacked]
  refine ⟨fun hs => ?_, fun _ => ?_⟩
  · cases hs
  · dsimp only
    rw [hbook, hiface]
    exact ⟨hsaid, rfl⟩

theorem Inv.heard (h : Inv w) {m : Msg} (hok : w.client.Takes m ∨ w.client.Harmless m)
    (hack : w.takesAck m = true → w.client.state ≠ .renewing →
      (m.writes.netmask.isSome = true ∨ w.client.netmask = 0) ∧
      (m.writes.gateway.isSome = true ∨ w.client.gateway = 0)) :
    Inv ⟨(respond now fresh w.client w.iface m).1, (respond now fresh w.client w.iface m).2,
      w.book (some m) (respond now fresh w.client w.iface m).1.state⟩ := by
  by_cases ht : w.client.Takes m
  · obtain ⟨hm, hn | ho | ha⟩ := ht
    · rw [respond_nak hm hn]
      exact .of_free rfl rfl
    · rw [respond_offer hm ho]
      have hfree : w.client.state.leased = false := by
        rw [ho.2.1]
        rfl
      exact .of_free rfl (h.free hfree).1
    · refine h.ack hm ha (hack ?_)
      rw [takesAck, hm, decide_eq_true ha]
      rfl
  · have hr := (@refused_iff now fresh _ w.iface _ ht).mpr (hok.resolve_left ht)
    refine h.untouched hr fun m' he => ?_
    cases he
    rw [takesAck, Bool.and_eq_false_iff, decide_eq_false_iff_not]
    cases hm : m.complete with
    | false => exact .inl rfl
    | true => exact .inr fun ha => ht ⟨hm, .inr (.inr ha)⟩

/-- What the timer does to a client: nothing to the lease, or the lease is over. -/
theorem timer_cases (c : Client) : let c' := c.timer now fresh
    (c'.state.leased = c.state.leased ∧ c'.ip = c.ip ∧ c'.netmask = c.netmask ∧ c'.gateway = c.gateway) ∨
      (c'.state.leased = false ∧ c'.ip = 0) := by
  unfold Client.timer
  split
  · rename_i hs
    split
    · exact .inr ⟨rfl, rfl⟩
    · split
      · rename_i hb
        split
        · unfold Client.renew
          split
          · exact .inl ⟨rfl, rfl, rfl, rfl⟩
          · exact .inl ⟨by rw [hb]; rfl, rfl, rfl, rfl⟩
        · exact .inl ⟨rfl, rfl, rfl, rfl⟩
      · split
        · exact .inl ⟨rfl, rfl, rfl, rfl⟩
        · exact .inl ⟨rfl, rfl, rfl, rfl⟩
  · rename_i hs
    have hfree : c.state.leased = false := by
      cases hc : c.state <;> simp_all [State.leased]
    split
    · split
      · exact .inl ⟨rfl, rfl, rfl, rfl⟩
      · exact .inl ⟨hfree.symm, rfl, rfl, rfl⟩
    · exact .inl ⟨rfl, rfl, rfl, rfl⟩

theorem Inv.tick (h : Inv w) : Inv ⟨w.client.timer now fresh, w.iface, w.book none (w.client.timer now fresh).state⟩ := by
  rcases @timer_cases now fresh w.client with ⟨hs, hip, hmask, hgate⟩ | ⟨hs, hip⟩
  · refine ⟨fun hs' => ?_, fun hs' => ?_⟩
    · dsimp only at hs' ⊢
      refine ⟨hip.trans (h.free (hs.symm.trans hs')).1, book_free hs'⟩
    · dsimp only at hs' ⊢
      rw [book_none hs', hip, hmask, hgate]
      exact h.held (hs.symm.trans hs')
  · exact .of_free hs hip

theorem Inv.step {o : Op} {w' : World} (h : Inv w) (hok : Ok mac w o) (hs : step mac w o = some w') : Inv w' := by
  cases o with
  | tick now fresh =>
    cases hs
    exact h.tick
  | frame now fresh data =>
    rw [World.step, input_eq, Option.map_some, Option.some.injEq] at hs
    subst hs
    cases hm : hear mac w.client.xid data with
    | none => exact h.untouched ⟨rfl, rfl⟩ fun _ he => by cases he
    | some m =>
      obtain ⟨hok, hack⟩ := hok m hm
      exact h.heard hok hack

end World

/-- For every client and frame: all reads are inside the frame, and that a frame which does not count leaves the
    lease and the interface alone is the same as its being harmless. In a run where all such frames are, a client
    with a lease has its interface as the last ACK has said. -/
theorem lease_kept (mac : List UInt8) :
    (∀ (now : ℤ) (fresh : ℕ) (data : List UInt8) (c : Client) (f : Iface),
      ∃ r, input mac now fresh data c f = some r ∧
        (((¬∃ m, hear mac c.xid data = some m ∧ c.Takes m) → Untouched c f r) ↔
          ∀ m, hear mac c.xid data = some m → c.Takes m ∨ c.Harmless m)) ∧
    ∀ (now : ℤ) (f : Iface) (w : World), Reach (World.step mac) (World.Ok mac) (World.start now f) w →
      w.client.state.leased = true → w.iface = w.acked := by
  refine ⟨fun now fresh data c f => ⟨_, input_eq mac now fresh data c f, ?_⟩, fun now f w hw hs => ?_⟩
  · cases hm : hear mac c.xid data with
    | none => exact ⟨fun _ _ he => (by cases he), fun _ _ => ⟨rfl, rfl⟩⟩
    | some m =>
      rw [Option.elim_some]
      refine ⟨fun hu m' he => ?_, fun hh hno => ?_⟩
      · cases he
        by_cases ht : c.Takes m
        · exact .inl ht
        · refine .inr ((refused_iff ht).mp (hu ?_))
          rintro ⟨m', he, ht'⟩
          cases he
          exact ht ht'
      · have ht : ¬c.Takes m := fun ht => hno ⟨m, rfl, ht⟩
        exact (refused_iff ht).mpr ((hh m rfl).resolve_left ht)
  · have hinv : World.Inv w := hw.inv (I := World.Inv)
      ⟨fun _ => ⟨rfl, rfl⟩, fun h => (by cases h)⟩ fun _ _ _ h hok hst => h.step hok hst
    exact (hinv.held hs).2

/-! ### A truncated message with a router -/

/-- A frame from the server, for the device `2:0:0:0:0:1` and the transaction `xid`. -/
def reply (xid : UInt8) (yiaddr opts : List UInt8) : List UInt8 :=
  let len (n : ℕ) : List UInt8 := [UInt8.ofNat (n / 256), UInt8.ofNat (n % 256)]
  [0x45, 0] ++ len (268 + opts.length) ++ [0, 0, 0, 0, 16, 17, 0, 0, 10, 0, 0, 1, 255, 255, 255, 255] ++
    [0, 67, 0, 68] ++ len (248 + opts.length) ++ [0, 0] ++
    [2, 1, 6, 0, 0, 0, 0, xid, 0, 0, 0, 0, 0, 0, 0, 0] ++ yiaddr ++ List.replicate 8 0 ++
    [2, 0, 0, 0, 0, 1] ++ List.replicate 202 0 ++ [0x63, 0x82, 0x53, 0x63] ++ opts

/-- The client gets a lease with the router 10.0.0.1. -/
def leaseOps : List Op :=
  [.tick 3000000 7,
    .frame 3100000 0 (reply 7 [10, 0, 0, 2] [53, 1, 2, 54, 4, 10, 0, 0, 1, 255]),
    .frame 3200000 0 (reply 7 [10, 0, 0, 2]
      [53, 1, 5, 54, 4, 10, 0, 0, 1, 51, 4, 0, 0, 0, 100, 1, 4, 255, 255, 255, 0, 3, 4, 10, 0, 0, 1, 255])]

/-- A frame that counts, with the netmask and the router if it is an ACK. -/
def fullFrame (mac : List UInt8) (w : World) : Op → Bool
  | .tick _ _ => true
  | .frame _ _ data => (hear mac w.client.xid data).all fun m =>
      decide (w.client.Takes m) && (m.writes.netmask.isSome && m.writes.gateway.isSome || !w.takesAck m)

theorem ok_of_fullFrame {mac : List UInt8} {w : World} {o : Op} (h : fullFrame mac w o = true) : World.Ok mac w o := by
  cases o with
  | tick now fresh => trivial
  | frame now fresh data =>
    intro m hm
    rw [fullFrame, hm, Option.all_some, Bool.and_eq_true, decide_eq_true_eq, Bool.or_eq_true, Bool.and_eq_true,
      Bool.not_eq_true'] at h
    refine ⟨.inl h.1, fun hack _ => ?_⟩
    have hfull := h.2.resolve_right (by rw [hack]; exact Bool.noConfusion)
    exact ⟨.inl hfull.1, .inl hfull.2⟩

/-- The client with this lease has its interface as the ACK has said. -/
theorem lease_kept_bound : ∃ w, Reach (World.step [2, 0, 0, 0, 0, 1]) (World.Ok [2, 0, 0, 0, 0, 1])
    (World.start 0 ⟨0, 0, 0⟩) w ∧ w.client.state.leased = true ∧ w.iface.gateway ≠ 0 ∧ w.iface = w.acked := by
  have hrun : (runIf (World.step [2, 0, 0, 0, 0, 1]) (fullFrame [2, 0, 0, 0, 0, 1]) (World.start 0 ⟨0, 0, 0⟩)
      leaseOps).map (fun w => (w.client.state.leased, decide (w.iface.gateway = 0))) = some (true, false) := by
    decide +kernel
  obtain ⟨w, hw, hfacts⟩ := Option.map_eq_some_iff.mp hrun
  simp only [Prod.mk.injEq] at hfacts
  have hreach : Reach (World.step [2, 0, 0, 0, 0, 1]) (World.Ok [2, 0, 0, 0, 0, 1]) (World.start 0 ⟨0, 0, 0⟩) w :=
    reach_of_runIf hw fun _ _ => ok_of_fullFrame
  exact ⟨w, hreach, hfacts.1, of_decide_eq_false hfacts.2, (lease_kept [2, 0, 0, 0, 0, 1]).2 0 ⟨0, 0, 0⟩ w hreach hfacts.1⟩

/-- A frame that names the router 9.9.9.9 and breaks off in the option behind. -/
def brokenReply : List UInt8 := reply 7 [0, 0, 0, 0] [3, 4, 9, 9, 9, 9, 53]

/-- The broken frame, and the renewal half a lease later, which moves the address and names no router. -/
def spoiltOps : List Op :=
  leaseOps ++ [.frame 4000000 0 brokenReply, .tick 60000000 8,
    .frame 60100000 0 (reply 8 [10, 0, 0, 3] [53, 1, 5, 54, 4, 10, 0, 0, 1, 255])]

/-- A frame that does not count changes the router of the lease, and the next ACK brings it to the interface. -/
theorem router_spoilt : ∃ (mac : List UInt8) (f : Iface),
    (∃ (w : World) (data : List UInt8) (r : Client × Iface),
      Reach (World.step mac) Free (World.start 0 f) w ∧ input mac 4000000 0 data w.client w.iface = some r ∧
      (∀ m, hear mac w.client.xid data = some m → ¬w.client.Takes m) ∧ r.1.gateway ≠ w.client.gateway) ∧
    ∃ w : World, Reach (World.step mac) Free (World.start 0 f) w ∧ w.client.state.leased = true ∧ w.iface ≠ w.acked := by
  refine ⟨[2, 0, 0, 0, 0, 1], ⟨0, 0, 0⟩, ?_, ?_⟩
  · have hrun : (runOps (World.step [2, 0, 0, 0, 0, 1]) (World.start 0 ⟨0, 0, 0⟩) leaseOps).map (fun w =>
        ((input [2, 0, 0, 0, 0, 1] 4000000 0 brokenReply w.client w.iface).map fun r =>
          decide (r.1.gateway = w.client.gateway),
        (hear [2, 0, 0, 0, 0, 1] w.client.xid brokenReply).all fun m => !decide (w.client.Takes m))) =
        some (some false, true) := by decide +kernel
    obtain ⟨w, hw, hfacts⟩ := Option.map_eq_some_iff.mp hrun
    simp only [Prod.mk.injEq] at hfacts
    obtain ⟨r, hr, hgate⟩ := Option.map_eq_some_iff.mp hfacts.1
    refine ⟨w, brokenReply, r, reach_of_runOps hw, hr, fun m hm => ?_, of_decide_eq_false hgate⟩
    have hall := hfacts.2
    rw [hm] at hall
    simpa using hall
  · have hrun : (runOps (World.step [2, 0, 0, 0, 0, 1]) (World.start 0 ⟨0, 0, 0⟩) spoiltOps).map (fun w =>
        (w.client.state.leased, decide (w.iface = w.acked))) = some (true, false) := by decide +kernel
    obtain ⟨w, hw, hfacts⟩ := Option.map_eq_some_iff.mp hrun
    simp only [Prod.mk.injEq] at hfacts
    exact ⟨w, reach_of_runOps hw, hfacts.1, of_decide_eq_false hfacts.2⟩

end EwokOS.Net.Dhcp
