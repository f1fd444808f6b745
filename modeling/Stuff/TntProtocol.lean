import Stuff.MsgPack

/-!
# Requests to Tarantool and their replies

`asio_tnt::Protocol` numbers its requests, and the server sends the number back in the header of
the reply. The counter and the field of the header have 64 bits; the parameter of `formatHeader`
is an `int`.
-/
namespace Stuff.TntProtocol
open MachineWords ContainerStream MsgPack

/-- `uint64_t` to `int`. -/
def toInt (x : UInt64) : Int32 := x.toUInt32.toInt32

/-- `int` to `uint64_t`. -/
def ofInt (i : Int32) : UInt64 := i.toInt64.toUInt64

/-! ## `Header` -/

def protocolError : String := "Network error: Protocol error"

structure Header where
  code : UInt64 := 0
  sync : UInt64 := 0
  schemaId : UInt64 := 0
deriving DecidableEq, Repr

abbrev iprotoRequestType : Int32 := 0x00
abbrev iprotoSync : Int32 := 0x01
abbrev iprotoSchemaVersion : Int32 := 0x05

/-- One turn of the loop in `from_msgpack`. -/
def Header.entry (h : Header) : Reader Header := do
  let tmp ← readUint Int32.ofNat
  if tmp = iprotoRequestType then return { h with code := ← readUint UInt64.ofNat }
  else if tmp = iprotoSync then return { h with sync := ← readUint UInt64.ofNat }
  else if tmp = iprotoSchemaVersion then return { h with schemaId := ← readUint UInt64.ofNat }
  else throw protocolError

def Header.entries : ℕ → Header → Reader Header
  | 0, h => pure h
  | i + 1, h => h.entry >>= Header.entries i

/-- A size from 2^31 on is negative as an `int`, and the loop has no turn. -/
def Header.fromMsgpack : Reader Header := do
  let size ← readMapSize
  Header.entries size.toInt32.toInt.toNat {}

/-! ## `Protocol` -/

structure IndexSpec where
  id : UInt32 := 0
  limit : UInt32 := 255
  offset : UInt32 := 0
  iterator : UInt32 := 0
deriving DecidableEq, Repr

/-- The two types that `write` is for. -/
inductive Key
  | string (aKey : Bytes)
  | uint (aKey : UInt64)
deriving DecidableEq, Repr

def write : Key → Bytes
  | .string aKey => writeString aKey
  | .uint aKey => writeUint aKey

abbrev codeSelect : Int32 := 1
abbrev codeInsert : Int32 := 2
abbrev codeDelete : Int32 := 5
abbrev codeCall : Int32 := 0xa

structure Protocol where
  m_Serial : UInt64 := 1
  m_Space : UInt32
deriving DecidableEq, Repr

structure Request where
  serial : UInt64
  body : Bytes
deriving DecidableEq, Repr

def formatHeader (aCode aSync : Int32) : Bytes :=
  writeMapSize 2 ++ writeUint 0 ++ writeUint (ofInt aCode) ++ writeUint 1 ++
    writeUint (ofInt aSync)

def formatCallBody (aName : Bytes) (aArgs : List Key) : Bytes :=
  writeMapSize 2 ++ writeUint 0x22 ++ writeString aName ++ writeUint 0x21 ++
    writeArraySize (UInt32.ofNat aArgs.length) ++ aArgs.flatMap write

namespace Protocol
variable (p : Protocol)

def formatSelectBody (aIndex : IndexSpec) : Bytes :=
  writeMapSize 6 ++ writeUint 0x10 ++ writeUint p.m_Space.toUInt64 ++ writeUint 0x11 ++
    writeUint aIndex.id.toUInt64 ++ writeUint 0x12 ++ writeUint aIndex.limit.toUInt64 ++
    writeUint 0x13 ++ writeUint aIndex.offset.toUInt64 ++ writeUint 0x14 ++
    writeUint aIndex.iterator.toUInt64 ++ writeUint 0x20 ++ writeArraySize 1

/-- `aValue` is what `serialize` writes. -/
def formatInsertBody (aValue : Bytes) : Bytes :=
  writeMapSize 2 ++ writeUint 0x10 ++ writeUint p.m_Space.toUInt64 ++ writeUint 0x21 ++ aValue

def formatDeleteBody (aIndex : IndexSpec) : Bytes :=
  writeMapSize 3 ++ writeUint 0x10 ++ writeUint p.m_Space.toUInt64 ++ writeUint 0x11 ++
    writeUint aIndex.id.toUInt64 ++ writeUint 0x20 ++ writeArraySize 1

/-- `m_Serial++`, and the header and the body of the request. -/
def format (aCode : Int32) (body : Bytes) : Request × Protocol :=
  ({ serial := p.m_Serial, body := formatHeader aCode (toInt p.m_Serial) ++ body },
    { p with m_Serial := p.m_Serial + 1 })

def formatSelect (aIndex : IndexSpec) (aKey : Key) : Request × Protocol :=
  p.format codeSelect (p.formatSelectBody aIndex ++ write aKey)

def formatInsert (aData : Bytes) : Request × Protocol :=
  p.format codeInsert (p.formatInsertBody aData)

def formatDelete (aIndex : IndexSpec) (aKey : Key) : Request × Protocol :=
  p.format codeDelete (p.formatDeleteBody aIndex ++ write aKey)

def formatCall (aName : Bytes) (aArgs : List Key) : Request × Protocol :=
  p.format codeCall (formatCallBody aName aArgs)

end Protocol

inductive Call
  | select (aIndex : IndexSpec) (aKey : Key)
  | insert (aData : Bytes)
  | delete (aIndex : IndexSpec) (aKey : Key)
  | call (aName : Bytes) (aArgs : List Key)
deriving DecidableEq, Repr

def Protocol.request (p : Protocol) : Call → Request × Protocol
  | .select aIndex aKey => p.formatSelect aIndex aKey
  | .insert aData => p.formatInsert aData
  | .delete aIndex aKey => p.formatDelete aIndex aKey
  | .call aName aArgs => p.formatCall aName aArgs

/-- The requests of one object, in the order in which it took their numbers. -/
def Protocol.requests (p : Protocol) : List Call → List Request
  | [] => []
  | c :: cs => (p.request c).1 :: (p.request c).2.requests cs

/-! ## Replies -/

/-- The bytes of the entries of a map with numbers for keys and values, in any of their forms. -/
inductive Entries : List (UInt64 × UInt64) → Bytes → Prop
  | nil : Entries [] []
  | cons {k v : UInt64} {kb vb bs : Bytes} {kvs : List (UInt64 × UInt64)} :
      Form (.uint k) kb → Form (.uint v) vb → Entries kvs bs →
        Entries ((k, v) :: kvs) (kb ++ vb ++ bs)

/-- A message begins with such a map. -/
def Begins (kvs : List (UInt64 × UInt64)) (message : Bytes) : Prop :=
  ∃ size bs rest, message = size ++ bs ++ rest ∧
    Form (.mapSize (UInt32.ofNat kvs.length)) size ∧ Entries kvs bs

/-- The reply has the number under `IPROTO_SYNC` that the request has there, and may have a code
and a version beside it. -/
def Echoes (r : Request) (reply : Bytes) : Prop :=
  ∃ code sync front back, Begins [(0, code), (1, sync)] r.body ∧
    Begins (front ++ (1, sync) :: back) reply ∧
    (front ++ back).length + 1 < 2 ^ 31 ∧ ∀ kv ∈ front ++ back, kv.1 = 0 ∨ kv.1 = 5

/-- Every reply is decoded to the number of the request. -/
def Matched (r : Request) : Prop :=
  ∀ reply, reply.length < 2 ^ 64 → Echoes r reply →
    ∃ h s, Header.fromMsgpack { data := reply } = .ok (h, s) ∧ h.sync = r.serial

/-! ## The number in 32 bits -/

theorem ofInt_toInt_iff (x : UInt64) :
    ofInt (toInt x) = x ↔ x.toNat < 2 ^ 31 ∨ 2 ^ 64 - 2 ^ 31 ≤ x.toNat := by
  have hx := x.toNat_lt
  have hnat : (ofInt (toInt x)).toNat =
      x.toNat % 2 ^ 32 + if 2 ^ 31 ≤ x.toNat % 2 ^ 32 then 2 ^ 64 - 2 ^ 32 else 0 := by
    change ((x.toBitVec.setWidth 32).signExtend 64).toNat = _
    rw [BitVec.toNat_signExtend, BitVec.msb_eq_decide, BitVec.toNat_setWidth, BitVec.toNat_setWidth,
      Nat.mod_eq_of_lt (show x.toBitVec.toNat % 2 ^ 32 < 2 ^ 64 by omega)]
    simp only [decide_eq_true_eq]
    rfl
  rw [← UInt64.toNat_inj, hnat]
  split_ifs <;> omega

/-! ## Reading a header -/

def Header.set (h : Header) (kv : UInt64 × UInt64) : Header :=
  if kv.1 = 0 then { h with code := kv.2 }
  else if kv.1 = 1 then { h with sync := kv.2 }
  else { h with schemaId := kv.2 }

theorem consumes_entry (h : Header) {k v : UInt64} {kb vb : Bytes}
    (hk : k = 0 ∨ k = 1 ∨ k = 5) (hkb : Form (.uint k) kb) (hvb : Form (.uint v) vb) :
    Consumes h.entry (kb ++ vb) (h.set (k, v)) := by
  have hvalue : ∀ f : UInt64 → Header,
      Consumes (readUint UInt64.ofNat >>= fun x => pure (f x)) vb (f v) :=
    fun f => (consumes_readUint hvb).map f
  rcases hk with rfl | rfl | rfl
  · exact (consumes_readUint_cast Int32.ofNat hkb).bind (hvalue fun x => { h with code := x })
  · exact (consumes_readUint_cast Int32.ofNat hkb).bind (hvalue fun x => { h with sync := x })
  · exact (consumes_readUint_cast Int32.ofNat hkb).bind (hvalue fun x => { h with schemaId := x })

theorem consumes_entries {kvs : List (UInt64 × UInt64)} {bs : Bytes} (hbs : Entries kvs bs)
    (hk : ∀ kv ∈ kvs, kv.1 = 0 ∨ kv.1 = 1 ∨ kv.1 = 5) (h : Header) :
    Consumes (Header.entries kvs.length h) bs (kvs.foldl Header.set h) := by
  induction hbs generalizing h with
  | nil => exact consumes_pure h
  | cons hkb hvb hbs ih =>
      rw [List.forall_mem_cons] at hk
      exact (consumes_entry h hk.1 hkb hvb).bind (ih hk.2 _)

theorem consumes_fromMsgpack {kvs : List (UInt64 × UInt64)} {size bs : Bytes}
    (hlen : kvs.length < 2 ^ 31) (hsize : Form (.mapSize (UInt32.ofNat kvs.length)) size)
    (hbs : Entries kvs bs) (hk : ∀ kv ∈ kvs, kv.1 = 0 ∨ kv.1 = 1 ∨ kv.1 = 5) :
    Consumes Header.fromMsgpack (size ++ bs) (kvs.foldl Header.set {}) := by
  have hcount : (UInt32.ofNat kvs.length).toInt32.toInt.toNat = kvs.length := by
    have hnat : (BitVec.ofNat 32 kvs.length).toNat = kvs.length := by
      rw [BitVec.toNat_ofNat]
      omega
    change (BitVec.ofNat 32 kvs.length).toInt.toNat = _
    rw [BitVec.toInt_eq_toNat_of_lt (by omega), hnat, Int.toNat_natCast]
  have hentries := consumes_entries hbs hk {}
  rw [← hcount] at hentries
  exact (consumes_readMapSize hsize).bind hentries

theorem sync_foldl_set {kvs : List (UInt64 × UInt64)} (hk : ∀ kv ∈ kvs, kv.1 ≠ 1) (h : Header) :
    (kvs.foldl Header.set h).sync = h.sync := by
  induction kvs generalizing h with
  | nil => rfl
  | cons kv kvs ih =>
      rw [List.forall_mem_cons] at hk
      rw [List.foldl_cons, ih hk.2, Header.set, if_neg hk.1]
      split_ifs <;> rfl

/-! ## What a reply brings back -/

theorem form_uint (v : UInt64) : Form (.uint v) (writeUint v) :=
  @form_write (.uint v) fun _ h => by cases h

theorem entries_formatHeader (aCode aSync : Int32) :
    Entries [(0, ofInt aCode), (1, ofInt aSync)]
      (writeUint 0 ++ writeUint (ofInt aCode) ++
        (writeUint 1 ++ writeUint (ofInt aSync) ++ [])) :=
  .cons (form_uint 0) (form_uint _) (.cons (form_uint 1) (form_uint _) .nil)

theorem begins_formatHeader (aCode aSync : Int32) (rest : Bytes) :
    Begins [(0, ofInt aCode), (1, ofInt aSync)] (formatHeader aCode aSync ++ rest) := by
  refine ⟨writeMapSize 2, _, rest, ?_, @form_write (.mapSize 2) fun _ h => (by cases h),
    entries_formatHeader aCode aSync⟩
  simp only [formatHeader, List.append_assoc, List.append_nil]

theorem length_entries_le {kvs : List (UInt64 × UInt64)} {bs : Bytes} (h : Entries kvs bs) :
    bs.length ≤ 18 * kvs.length := by
  induction h with
  | nil => exact le_refl 0
  | cons hkb hvb hbs ih =>
      have hk := length_form_uint_le hkb
      have hv := length_form_uint_le hvb
      rw [List.length_append, List.length_append, List.length_cons]
      omega

theorem length_formatHeader_lt (aCode aSync : Int32) :
    (formatHeader aCode aSync).length < 2 ^ 64 := by
  have hsize : (writeMapSize 2).length = 1 := rfl
  have hentries := length_entries_le (entries_formatHeader aCode aSync)
  simp only [formatHeader, List.length_append, List.length_cons, List.length_nil] at hentries ⊢
  omega

/-- A request has one number in its header. -/
theorem sync_unique {c s c' s' : UInt64} {message : Bytes}
    (h : Begins [(0, c), (1, s)] message) (h' : Begins [(0, c'), (1, s')] message) : s = s' := by
  obtain ⟨size, bs, rest, rfl, hsize, hbs⟩ := h
  obtain ⟨size', bs', rest', heq, hsize', hbs'⟩ := h'
  have hread : ∀ {c s : UInt64} {size bs : Bytes}, Form (.mapSize 2) size →
      Entries [(0, c), (1, s)] bs →
        Consumes Header.fromMsgpack (size ++ bs) { code := c, sync := s } := by
    intro c s size bs hsize hbs
    have hlen : [((0 : UInt64), c), (1, s)].length < 2 ^ 31 := by simp
    exact consumes_fromMsgpack hlen hsize hbs (by simp)
  have hlen : ∀ {c s : UInt64} {size bs : Bytes}, Form (.mapSize 2) size →
      Entries [(0, c), (1, s)] bs → (size ++ bs).length ≤ 41 := by
    intro c s size bs hsize hbs
    have hfirst := length_form_mapSize_le hsize
    have hsecond := length_entries_le hbs
    simp only [List.length_append, List.length_cons, List.length_nil] at hsecond ⊢
    omega
  have hle := hlen hsize hbs
  have hle' := hlen hsize' hbs'
  have hsame := (hread hsize hbs).unique (hread hsize' hbs') (List.prefix_append _ rest)
    (heq ▸ List.prefix_append _ rest') (by omega)
  exact congrArg Header.sync hsame

theorem Begins.sync_eq {front back : List (UInt64 × UInt64)} {sync : UInt64} {reply : Bytes}
    (h : Begins (front ++ (1, sync) :: back) reply) (hsize : reply.length < 2 ^ 64)
    (hlen : (front ++ back).length + 1 < 2 ^ 31)
    (hkeys : ∀ kv ∈ front ++ back, kv.1 = 0 ∨ kv.1 = 5) :
    ∃ h s, Header.fromMsgpack { data := reply } = .ok (h, s) ∧ h.sync = sync := by
  obtain ⟨size, bs, rest, rfl, hform, hbs⟩ := h
  have hall : ∀ kv ∈ front ++ (1, sync) :: back, kv.1 = 0 ∨ kv.1 = 1 ∨ kv.1 = 5 := by
    intro kv hkv
    rw [List.mem_append, List.mem_cons] at hkv
    rcases hkv with hkv | rfl | hkv
    · exact (hkeys kv (List.mem_append_left _ hkv)).imp_right .inr
    · exact .inr (.inl rfl)
    · exact (hkeys kv (List.mem_append_right _ hkv)).imp_right .inr
  have hcount : (front ++ (1, sync) :: back).length < 2 ^ 31 := by
    simp only [List.length_append, List.length_cons] at hlen ⊢
    omega
  refine ⟨_, _, consumes_fromMsgpack hcount hform hbs hall _ [] rest rfl hsize, ?_⟩
  have hback : ∀ kv ∈ back, kv.1 ≠ 1 := by
    intro kv hkv hone
    have hkey := hkeys kv (List.mem_append_right _ hkv)
    rw [hone] at hkey
    exact absurd hkey (by decide)
  rw [List.foldl_append, List.foldl_cons, sync_foldl_set hback]
  rfl

/-- The replies to a request are decoded to its number if and only if this survives the `int`. -/
theorem matched_iff (aCode : Int32) (serial : UInt64) (rest : Bytes) :
    Matched { serial := serial, body := formatHeader aCode (toInt serial) ++ rest } ↔
      ofInt (toInt serial) = serial := by
  have hbegins := begins_formatHeader aCode (toInt serial)
  constructor
  · intro hmatched
    have hreply := hbegins []
    rw [List.append_nil] at hreply
    have hsize := length_formatHeader_lt aCode (toInt serial)
    have hlen : ([((0 : UInt64), ofInt aCode)] ++ []).length + 1 < 2 ^ 31 := by simp
    have hkeys : ∀ kv ∈ [((0 : UInt64), ofInt aCode)] ++ [], kv.1 = 0 ∨ kv.1 = 5 := by simp
    have hecho : Echoes { serial := serial, body := formatHeader aCode (toInt serial) ++ rest }
        (formatHeader aCode (toInt serial)) :=
      ⟨_, _, [(0, ofInt aCode)], [], hbegins rest, hreply, hlen, hkeys⟩
    obtain ⟨h, s, hread, hsync⟩ := hmatched _ hsize hecho
    obtain ⟨h', s', hread', hsync'⟩ :=
      @Begins.sync_eq [(0, ofInt aCode)] [] _ _ hreply hsize hlen hkeys
    cases hread.symm.trans hread'
    exact hsync'.symm.trans hsync
  · rintro hserial reply hsize ⟨code, sync, front, back, hr, hreply, hlen, hkeys⟩
    obtain ⟨h, s, hread, hsync⟩ := hreply.sync_eq hsize hlen hkeys
    exact ⟨h, s, hread, hsync.trans ((sync_unique hr (hbegins rest)).trans hserial)⟩

/-! ## The requests of one object -/

theorem request_eq (p : Protocol) (c : Call) : ∃ aCode body, p.request c = p.format aCode body := by
  cases c <;> exact ⟨_, _, rfl⟩

theorem requests_get {p : Protocol} {cs : List Call} {i : ℕ} {r : Request}
    (h : (p.requests cs)[i]? = some r) :
    i < cs.length ∧ ∃ aCode rest serial, serial = p.m_Serial + UInt64.ofNat i ∧
      r = { serial := serial, body := formatHeader aCode (toInt serial) ++ rest } := by
  induction cs generalizing p i with
  | nil => cases h
  | cons c cs ih =>
      obtain ⟨aCode, body, hformat⟩ := request_eq p c
      rw [Protocol.requests, hformat] at h
      cases i with
      | zero =>
          cases h
          exact ⟨Nat.succ_pos _, aCode, body, _, (UInt64.add_zero _).symm, rfl⟩
      | succ i =>
          obtain ⟨hi, aCode', rest, serial, rfl, hr⟩ := ih h
          refine ⟨Nat.succ_lt_succ hi, aCode', rest, _, rfl, ?_⟩
          rw [hr, show (p.format aCode body).2.m_Serial + UInt64.ofNat i =
            p.m_Serial + UInt64.ofNat (i + 1) from ?_]
          rw [UInt64.ofNat_add, UInt64.add_comm (UInt64.ofNat i), ← UInt64.add_assoc]
          rfl

theorem length_requests (p : Protocol) (cs : List Call) :
    (p.requests cs).length = cs.length := by
  induction cs generalizing p with
  | nil => rfl
  | cons c cs ih => exact congrArg (· + 1) (ih _)

/-- The numbers count from 1. -/
theorem requests_serial (m_Space : UInt32) {cs : List Call} (hcs : cs.length ≤ 2 ^ 63) {i : ℕ}
    {r : Request} (h : (({ m_Space := m_Space } : Protocol).requests cs)[i]? = some r) :
    r.serial.toNat = i + 1 ∧ (Matched r ↔ i + 1 < 2 ^ 31) := by
  obtain ⟨hi, aCode, rest, serial, hserial, rfl⟩ := requests_get h
  have hnat : serial.toNat = i + 1 := by
    rw [hserial, UInt64.toNat_add, UInt64.toNat_ofNat']
    change (1 + i % 2 ^ 64) % 2 ^ 64 = i + 1
    omega
  rw [matched_iff, ofInt_toInt_iff, hnat]
  exact ⟨rfl, by omega⟩

/-- Of the requests of one object, whatever they are, those are matched by every reply whose number
is below 2^31. -/
theorem requests_matched_iff (m_Space : UInt32) (cs : List Call) (hcs : cs.length ≤ 2 ^ 63) :
    ∀ r ∈ ({ m_Space := m_Space } : Protocol).requests cs, Matched r ↔ r.serial.toNat < 2 ^ 31 := by
  intro r hr
  obtain ⟨i, hi⟩ := List.mem_iff_getElem?.mp hr
  have hserial := requests_serial m_Space hcs hi
  rw [hserial.2, hserial.1]

/-- A select and a call. -/
theorem requests_matched_two :
    (({ m_Space := 512 } : Protocol).requests
      [.select {} (.uint 5), .call [0x66] [.string [0x61], .uint 300]]).Forall Matched := by
  rw [List.forall_iff_forall_mem]
  intro r hr
  refine (requests_matched_iff 512 _ (by decide) r hr).mpr ?_
  have hserial : ∀ r ∈ ({ m_Space := 512 } : Protocol).requests
      [.select {} (.uint 5), .call [0x66] [.string [0x61], .uint 300]],
        r.serial.toNat < 2 ^ 31 := by decide
  exact hserial r hr

/-- The number 2^31 goes out as 2^64 - 2^31. -/
theorem serial_extended :
    ofInt (toInt 0x80000000) = 0xffffffff80000000 ∧
      ∃ cs : List Call, cs.length ≤ 2 ^ 63 ∧
        ∃ r ∈ ({ m_Space := 512 } : Protocol).requests cs,
          r.serial.toNat = 2 ^ 31 ∧ ¬ Matched r := by
  have hlen : (List.replicate (2 ^ 31) (Call.insert [])).length = 2 ^ 31 := List.length_replicate
  have hcs : (List.replicate (2 ^ 31) (Call.insert [])).length ≤ 2 ^ 63 := by omega
  have hlast : 2 ^ 31 - 1 < (({ m_Space := 512 } : Protocol).requests
      (List.replicate (2 ^ 31) (.insert []))).length := by
    rw [length_requests]
    omega
  have hget := List.getElem?_eq_getElem hlast
  have hserial := requests_serial 512 hcs hget
  refine ⟨rfl, _, hcs, _, List.mem_of_getElem? hget, ?_, fun h => ?_⟩
  · omega
  · exact absurd (hserial.2.mp h) (by omega)

end Stuff.TntProtocol
