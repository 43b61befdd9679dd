-- How `diff-delta.c` makes a delta: an index of the source by the Rabin values
-- of its blocks, and the loop over the target that emits copies and inserts.
import Git.PatchDelta

namespace git.delta

abbrev HASH_LIMIT : Nat := 64
abbrev RABIN_SHIFT : UInt32 := 23
abbrev RABIN_WINDOW : Nat := 16
/-- `MAX_OP_SIZE`: `5 + 5 + 1 + RABIN_WINDOW + 7` -/
abbrev MAX_OP_SIZE : Nat := 34

/-! ## Rabin values -/

def T : Array UInt32 := #[
   0x00000000, 0xab59b4d1, 0x56b369a2, 0xfdeadd73, 0x063f6795, 0xad66d344, 0x508c0e37, 0xfbd5bae6,
   0x0c7ecf2a, 0xa7277bfb, 0x5acda688, 0xf1941259, 0x0a41a8bf, 0xa1181c6e, 0x5cf2c11d, 0xf7ab75cc,
   0x18fd9e54, 0xb3a42a85, 0x4e4ef7f6, 0xe5174327, 0x1ec2f9c1, 0xb59b4d10, 0x48719063, 0xe32824b2,
   0x1483517e, 0xbfdae5af, 0x423038dc, 0xe9698c0d, 0x12bc36eb, 0xb9e5823a, 0x440f5f49, 0xef56eb98,
   0x31fb3ca8, 0x9aa28879, 0x6748550a, 0xcc11e1db, 0x37c45b3d, 0x9c9defec, 0x6177329f, 0xca2e864e,
   0x3d85f382, 0x96dc4753, 0x6b369a20, 0xc06f2ef1, 0x3bba9417, 0x90e320c6, 0x6d09fdb5, 0xc6504964,
   0x2906a2fc, 0x825f162d, 0x7fb5cb5e, 0xd4ec7f8f, 0x2f39c569, 0x846071b8, 0x798aaccb, 0xd2d3181a,
   0x25786dd6, 0x8e21d907, 0x73cb0474, 0xd892b0a5, 0x23470a43, 0x881ebe92, 0x75f463e1, 0xdeadd730,
   0x63f67950, 0xc8afcd81, 0x354510f2, 0x9e1ca423, 0x65c91ec5, 0xce90aa14, 0x337a7767, 0x9823c3b6,
   0x6f88b67a, 0xc4d102ab, 0x393bdfd8, 0x92626b09, 0x69b7d1ef, 0xc2ee653e, 0x3f04b84d, 0x945d0c9c,
   0x7b0be704, 0xd05253d5, 0x2db88ea6, 0x86e13a77, 0x7d348091, 0xd66d3440, 0x2b87e933, 0x80de5de2,
   0x7775282e, 0xdc2c9cff, 0x21c6418c, 0x8a9ff55d, 0x714a4fbb, 0xda13fb6a, 0x27f92619, 0x8ca092c8,
   0x520d45f8, 0xf954f129, 0x04be2c5a, 0xafe7988b, 0x5432226d, 0xff6b96bc, 0x02814bcf, 0xa9d8ff1e,
   0x5e738ad2, 0xf52a3e03, 0x08c0e370, 0xa39957a1, 0x584ced47, 0xf3155996, 0x0eff84e5, 0xa5a63034,
   0x4af0dbac, 0xe1a96f7d, 0x1c43b20e, 0xb71a06df, 0x4ccfbc39, 0xe79608e8, 0x1a7cd59b, 0xb125614a,
   0x468e1486, 0xedd7a057, 0x103d7d24, 0xbb64c9f5, 0x40b17313, 0xebe8c7c2, 0x16021ab1, 0xbd5bae60,
   0x6cb54671, 0xc7ecf2a0, 0x3a062fd3, 0x915f9b02, 0x6a8a21e4, 0xc1d39535, 0x3c394846, 0x9760fc97,
   0x60cb895b, 0xcb923d8a, 0x3678e0f9, 0x9d215428, 0x66f4eece, 0xcdad5a1f, 0x3047876c, 0x9b1e33bd,
   0x7448d825, 0xdf116cf4, 0x22fbb187, 0x89a20556, 0x7277bfb0, 0xd92e0b61, 0x24c4d612, 0x8f9d62c3,
   0x7836170f, 0xd36fa3de, 0x2e857ead, 0x85dcca7c, 0x7e09709a, 0xd550c44b, 0x28ba1938, 0x83e3ade9,
   0x5d4e7ad9, 0xf617ce08, 0x0bfd137b, 0xa0a4a7aa, 0x5b711d4c, 0xf028a99d, 0x0dc274ee, 0xa69bc03f,
   0x5130b5f3, 0xfa690122, 0x0783dc51, 0xacda6880, 0x570fd266, 0xfc5666b7, 0x01bcbbc4, 0xaae50f15,
   0x45b3e48d, 0xeeea505c, 0x13008d2f, 0xb85939fe, 0x438c8318, 0xe8d537c9, 0x153feaba, 0xbe665e6b,
   0x49cd2ba7, 0xe2949f76, 0x1f7e4205, 0xb427f6d4, 0x4ff24c32, 0xe4abf8e3, 0x19412590, 0xb2189141,
   0x0f433f21, 0xa41a8bf0, 0x59f05683, 0xf2a9e252, 0x097c58b4, 0xa225ec65, 0x5fcf3116, 0xf49685c7,
   0x033df00b, 0xa86444da, 0x558e99a9, 0xfed72d78, 0x0502979e, 0xae5b234f, 0x53b1fe3c, 0xf8e84aed,
   0x17bea175, 0xbce715a4, 0x410dc8d7, 0xea547c06, 0x1181c6e0, 0xbad87231, 0x4732af42, 0xec6b1b93,
   0x1bc06e5f, 0xb099da8e, 0x4d7307fd, 0xe62ab32c, 0x1dff09ca, 0xb6a6bd1b, 0x4b4c6068, 0xe015d4b9,
   0x3eb80389, 0x95e1b758, 0x680b6a2b, 0xc352defa, 0x3887641c, 0x93ded0cd, 0x6e340dbe, 0xc56db96f,
   0x32c6cca3, 0x999f7872, 0x6475a501, 0xcf2c11d0, 0x34f9ab36, 0x9fa01fe7, 0x624ac294, 0xc9137645,
   0x26459ddd, 0x8d1c290c, 0x70f6f47f, 0xdbaf40ae, 0x207afa48, 0x8b234e99, 0x76c993ea, 0xdd90273b,
   0x2a3b52f7, 0x8162e626, 0x7c883b55, 0xd7d18f84, 0x2c043562, 0x875d81b3, 0x7ab75cc0, 0xd1eee811]

def U : Array UInt32 := #[
   0x00000000, 0x7eb5200d, 0x5633f4cb, 0x2886d4c6, 0x073e5d47, 0x798b7d4a, 0x510da98c, 0x2fb88981,
   0x0e7cba8e, 0x70c99a83, 0x584f4e45, 0x26fa6e48, 0x0942e7c9, 0x77f7c7c4, 0x5f711302, 0x21c4330f,
   0x1cf9751c, 0x624c5511, 0x4aca81d7, 0x347fa1da, 0x1bc7285b, 0x65720856, 0x4df4dc90, 0x3341fc9d,
   0x1285cf92, 0x6c30ef9f, 0x44b63b59, 0x3a031b54, 0x15bb92d5, 0x6b0eb2d8, 0x4388661e, 0x3d3d4613,
   0x39f2ea38, 0x4747ca35, 0x6fc11ef3, 0x11743efe, 0x3eccb77f, 0x40799772, 0x68ff43b4, 0x164a63b9,
   0x378e50b6, 0x493b70bb, 0x61bda47d, 0x1f088470, 0x30b00df1, 0x4e052dfc, 0x6683f93a, 0x1836d937,
   0x250b9f24, 0x5bbebf29, 0x73386bef, 0x0d8d4be2, 0x2235c263, 0x5c80e26e, 0x740636a8, 0x0ab316a5,
   0x2b7725aa, 0x55c205a7, 0x7d44d161, 0x03f1f16c, 0x2c4978ed, 0x52fc58e0, 0x7a7a8c26, 0x04cfac2b,
   0x73e5d470, 0x0d50f47d, 0x25d620bb, 0x5b6300b6, 0x74db8937, 0x0a6ea93a, 0x22e87dfc, 0x5c5d5df1,
   0x7d996efe, 0x032c4ef3, 0x2baa9a35, 0x551fba38, 0x7aa733b9, 0x041213b4, 0x2c94c772, 0x5221e77f,
   0x6f1ca16c, 0x11a98161, 0x392f55a7, 0x479a75aa, 0x6822fc2b, 0x1697dc26, 0x3e1108e0, 0x40a428ed,
   0x61601be2, 0x1fd53bef, 0x3753ef29, 0x49e6cf24, 0x665e46a5, 0x18eb66a8, 0x306db26e, 0x4ed89263,
   0x4a173e48, 0x34a21e45, 0x1c24ca83, 0x6291ea8e, 0x4d29630f, 0x339c4302, 0x1b1a97c4, 0x65afb7c9,
   0x446b84c6, 0x3adea4cb, 0x1258700d, 0x6ced5000, 0x4355d981, 0x3de0f98c, 0x15662d4a, 0x6bd30d47,
   0x56ee4b54, 0x285b6b59, 0x00ddbf9f, 0x7e689f92, 0x51d01613, 0x2f65361e, 0x07e3e2d8, 0x7956c2d5,
   0x5892f1da, 0x2627d1d7, 0x0ea10511, 0x7014251c, 0x5facac9d, 0x21198c90, 0x099f5856, 0x772a785b,
   0x4c921c31, 0x32273c3c, 0x1aa1e8fa, 0x6414c8f7, 0x4bac4176, 0x3519617b, 0x1d9fb5bd, 0x632a95b0,
   0x42eea6bf, 0x3c5b86b2, 0x14dd5274, 0x6a687279, 0x45d0fbf8, 0x3b65dbf5, 0x13e30f33, 0x6d562f3e,
   0x506b692d, 0x2ede4920, 0x06589de6, 0x78edbdeb, 0x5755346a, 0x29e01467, 0x0166c0a1, 0x7fd3e0ac,
   0x5e17d3a3, 0x20a2f3ae, 0x08242768, 0x76910765, 0x59298ee4, 0x279caee9, 0x0f1a7a2f, 0x71af5a22,
   0x7560f609, 0x0bd5d604, 0x235302c2, 0x5de622cf, 0x725eab4e, 0x0ceb8b43, 0x246d5f85, 0x5ad87f88,
   0x7b1c4c87, 0x05a96c8a, 0x2d2fb84c, 0x539a9841, 0x7c2211c0, 0x029731cd, 0x2a11e50b, 0x54a4c506,
   0x69998315, 0x172ca318, 0x3faa77de, 0x411f57d3, 0x6ea7de52, 0x1012fe5f, 0x38942a99, 0x46210a94,
   0x67e5399b, 0x19501996, 0x31d6cd50, 0x4f63ed5d, 0x60db64dc, 0x1e6e44d1, 0x36e89017, 0x485db01a,
   0x3f77c841, 0x41c2e84c, 0x69443c8a, 0x17f11c87, 0x38499506, 0x46fcb50b, 0x6e7a61cd, 0x10cf41c0,
   0x310b72cf, 0x4fbe52c2, 0x67388604, 0x198da609, 0x36352f88, 0x48800f85, 0x6006db43, 0x1eb3fb4e,
   0x238ebd5d, 0x5d3b9d50, 0x75bd4996, 0x0b08699b, 0x24b0e01a, 0x5a05c017, 0x728314d1, 0x0c3634dc,
   0x2df207d3, 0x534727de, 0x7bc1f318, 0x0574d315, 0x2acc5a94, 0x54797a99, 0x7cffae5f, 0x024a8e52,
   0x06852279, 0x78300274, 0x50b6d6b2, 0x2e03f6bf, 0x01bb7f3e, 0x7f0e5f33, 0x57888bf5, 0x293dabf8,
   0x08f998f7, 0x764cb8fa, 0x5eca6c3c, 0x207f4c31, 0x0fc7c5b0, 0x7172e5bd, 0x59f4317b, 0x27411176,
   0x1a7c5765, 0x64c97768, 0x4c4fa3ae, 0x32fa83a3, 0x1d420a22, 0x63f72a2f, 0x4b71fee9, 0x35c4dee4,
   0x1400edeb, 0x6ab5cde6, 0x42331920, 0x3c86392d, 0x133eb0ac, 0x6d8b90a1, 0x450d4467, 0x3bb8646a]

/-- `val = ((val << 8) | byte) ^ T[val >> RABIN_SHIFT]` -/
def rabin_push (val : UInt32) (byte : UInt8) : UInt32 :=
  ((val <<< 8) ||| byte.toUInt32) ^^^ T.getD (val >>> RABIN_SHIFT).toNat 0

/-- `val ^= U[byte]` -/
def rabin_pop (val : UInt32) (byte : UInt8) : UInt32 := val ^^^ U.getD byte.toNat 0

/-- The value of a window. -/
def rabin (window : Bytes) : UInt32 := window.foldl rabin_push 0

/-! ## The index -/

/-- A block of the source: the offset of its end and its value. -/
structure index_entry where
  ptr : Nat
  val : UInt32
  deriving DecidableEq, Repr

structure delta_index where
  src_buf : Bytes
  hash_mask : Nat
  /-- `hash[i]` up to `hash[i+1]` -/
  hash : Nat → List index_entry

/-- `for (i = 4; (1u << i) < hsize && i < 31; i++);` -/
def hash_bits (hsize : Nat) : Nat → Nat → Nat
  | 0, i => i
  | fuel + 1, i => if 2 ^ i < hsize ∧ i < 31 then hash_bits hsize fuel (i + 1) else i

def index_entries (bufsize : Nat) : Nat :=
  if 0xffffffff ≤ bufsize then 0xfffffffe / RABIN_WINDOW else (bufsize - 1) / RABIN_WINDOW

/-- The loop that populates the index, from the last block to the first: the
newest entry is the head. Of consecutive identical blocks the lowest stays. -/
def populate (buffer : Bytes) : Nat → UInt32 → List index_entry → List index_entry
  | 0, _, entries => entries
  | n + 1, prev_val, entries =>
    let data := n * RABIN_WINDOW
    let val := rabin ((buffer.drop (data + 1)).take RABIN_WINDOW)
    if val = prev_val then
      match entries with
      | [] => populate buffer n prev_val []
      | entry :: rest =>
        populate buffer n prev_val ({ entry with ptr := data + RABIN_WINDOW } :: rest)
    else populate buffer n val (⟨data + RABIN_WINDOW, val⟩ :: entries)

/-- `do { entry = entry->next; acc -= HASH_LIMIT; } while (acc > 0);` -/
def cull_skip : Int → List index_entry → Int × List index_entry
  | acc, [] => (acc, [])
  | acc, _ :: rest =>
    if 0 < acc - HASH_LIMIT then cull_skip (acc - HASH_LIMIT) rest else (acc - HASH_LIMIT, rest)

/-- The entries of a bucket of `count` that are kept. -/
def cull (count : Nat) : Nat → Int → List index_entry → List index_entry
  | 0, _, _ => []
  | _ + 1, _, [] => []
  | fuel + 1, acc, entry :: rest =>
    let acc := acc + (count - HASH_LIMIT)
    if 0 < acc then
      entry :: cull count fuel (cull_skip acc rest).1 (cull_skip acc rest).2
    else entry :: cull count fuel acc rest

def cull_bucket (bucket : List index_entry) : List index_entry :=
  if bucket.length ≤ HASH_LIMIT then bucket else cull bucket.length bucket.length 0 bucket

/-- The linked list of hash `i`. -/
def bucket (hmask : Nat) (entries : List index_entry) (i : Nat) : List index_entry :=
  entries.filter fun entry => decide (entry.val.toNat &&& hmask = i)

def create_delta_index (buf : Bytes) : Option delta_index :=
  if buf = [] then none
  else
    let entries := index_entries buf.length
    let hmask := 2 ^ hash_bits (entries / 4) 31 4 - 1
    let unpacked := populate buf entries 0xffffffff []
    some ⟨buf, hmask, fun i => cull_bucket (bucket hmask unpacked i)⟩

/-! ## The loop over the target -/

/-- The locals of `create_delta`. `out` is what was written so far: `outpos`
is its length, and a run of literals has the place of its count in front. -/
structure delta_state where
  out : Bytes
  outsize : Nat
  data : Nat
  val : UInt32
  inscnt : Nat
  moff : Nat
  msize : Nat
  deriving DecidableEq, Repr

/-- `while (ref_size-- && *src++ == *ref) ref++;` -/
def common_length : Nat → Bytes → Bytes → Nat
  | ref_size + 1, s :: src, r :: ref => if s = r then common_length ref_size src ref + 1 else 0
  | _, _, _ => 0

/-- The entries of one hash, tried against the target from `data` on. The
result is the new `moff` and `msize`. -/
def best_match (ref_data trg : Bytes) (data : Nat) (val : UInt32) :
    List index_entry → Nat → Nat → Nat × Nat
  | [], moff, msize => (moff, msize)
  | entry :: rest, moff, msize =>
    if entry.val ≠ val then best_match ref_data trg data val rest moff msize
    else
      let ref_size := min ((ref_data.length - entry.ptr) % 2 ^ 32) (trg.length - data)
      if ref_size ≤ msize then (moff, msize)
      else
        let len := common_length ref_size (trg.drop data) (ref_data.drop entry.ptr)
        if msize < len then
          if 4096 ≤ len then (entry.ptr, len)
          else best_match ref_data trg data val rest entry.ptr len
        else best_match ref_data trg data val rest moff msize

/-- `if (msize < 4096) { ... }`: the window moves on to `data` and its hash is looked up. -/
def find_match (index : delta_index) (trg : Bytes) (s : delta_state) : delta_state :=
  if s.msize < 4096 then
    let val := rabin_push (rabin_pop s.val (trg.getD (s.data - RABIN_WINDOW) 0))
      (trg.getD s.data 0)
    let m := best_match index.src_buf trg s.data val
      (index.hash (val.toNat &&& index.hash_mask)) s.moff s.msize
    { s with val := val, moff := m.1, msize := m.2 }
  else s

/-- `out[outpos - inscnt - 1] = inscnt` -/
def set_count (out : Bytes) (inscnt : Nat) : Bytes :=
  out.set (out.length - inscnt - 1) (UInt8.ofNat inscnt)

/-- `if (msize < 4)`: the byte at `data` becomes a literal. -/
def emit_literal (trg : Bytes) (s : delta_state) : delta_state :=
  let out := if s.inscnt = 0 then s.out ++ [0] else s.out
  let out := out ++ [trg.getD s.data 0]
  if s.inscnt + 1 = 0x7f then
    { s with out := set_count out 0x7f, data := s.data + 1, inscnt := 0, msize := 0 }
  else { s with out := out, data := s.data + 1, inscnt := s.inscnt + 1, msize := 0 }

/-- The `while` that matches bytes back over the literals. With the last of
them the place of the count goes as well; `inscnt` is -1 there, and the count
is put where the opcode is written next. -/
def match_back (ref_data trg : Bytes) : Nat → delta_state → delta_state
  | 0, s => s
  | n + 1, s =>
    if s.moff ≠ 0 ∧ ref_data.getD (s.moff - 1) 0 = trg.getD (s.data - 1) 0 then
      let s' := { s with
        out := s.out.dropLast, data := s.data - 1, inscnt := n,
        moff := s.moff - 1, msize := s.msize + 1 }
      if n ≠ 0 then match_back ref_data trg n s' else { s' with out := s'.out.dropLast }
    else s

/-- `if (inscnt) { ...; out[outpos - inscnt - 1] = inscnt; inscnt = 0; }` -/
def end_literals (ref_data trg : Bytes) (s : delta_state) : delta_state :=
  let s := match_back ref_data trg s.inscnt s
  { s with out := if s.inscnt ≠ 0 then set_count s.out s.inscnt else s.out, inscnt := 0 }

/-- The copy opcode. What is over 64KB is left for the next round. -/
def emit_copy (ref_data trg : Bytes) (s : delta_state) : delta_state :=
  let s := end_literals ref_data trg s
  let left := if s.msize < 0x10000 then 0 else s.msize - 0x10000
  let msize := s.msize - left
  let data := s.data + msize
  { s with
    out := s.out ++ copy_bytes s.moff msize
    data := data
    moff := (s.moff + msize) % 2 ^ 32
    msize := left
    val := if left < 4096 then rabin ((trg.drop (data - RABIN_WINDOW)).take RABIN_WINDOW)
      else s.val }

/-- The body of the loop up to where the buffer is grown. -/
def emit (index : delta_index) (trg : Bytes) (s : delta_state) : delta_state :=
  let s := find_match index trg s
  if s.msize < 4 then emit_literal trg s else emit_copy index.src_buf trg s

inductive step_result where
  | more (s : delta_state)
  /-- `if (max_size && outpos > max_size) break;` -/
  | stop (s : delta_state)
  /-- The buffer is too small for what is written, or is made smaller than what is in it. -/
  | overrun

/-- The new `outsize`, an `unsigned int`. -/
def grown_size (max_size outsize : Nat) : Nat :=
  let outsize := outsize * 3 % 2 ^ 32 / 2
  if max_size ≠ 0 ∧ max_size ≤ outsize then max_size + MAX_OP_SIZE + 1 else outsize

/-- The body of the loop. Within a round the last byte written is the farthest. -/
def create_delta_step (index : delta_index) (trg : Bytes) (max_size : Nat) (s : delta_state) :
    step_result :=
  let s := emit index trg s
  if s.outsize < s.out.length then .overrun
  else if s.outsize - MAX_OP_SIZE ≤ s.out.length then
    if max_size ≠ 0 ∧ max_size < s.out.length then .stop s
    else if grown_size max_size s.outsize < s.out.length then .overrun
    else .more { s with outsize := grown_size max_size s.outsize }
  else .more s

inductive created where
  | null
  | overrun
  | gives (out : Bytes)
  deriving DecidableEq, Repr

/-- After the loop. -/
def finish (max_size : Nat) (s : delta_state) : created :=
  let out := if s.inscnt ≠ 0 then set_count s.out s.inscnt else s.out
  if max_size ≠ 0 ∧ max_size < out.length then .null else .gives out

/-- `while (data < top)`: each round takes `data` on. -/
def create_delta_loop (index : delta_index) (trg : Bytes) (max_size : Nat) :
    Nat → delta_state → created
  | 0, s => finish max_size s
  | fuel + 1, s =>
    if s.data < trg.length then
      match create_delta_step index trg max_size s with
      | .more s => create_delta_loop index trg max_size fuel s
      | .stop s => finish max_size s
      | .overrun => .overrun
    else finish max_size s

/-- What is set up before the loop: the header, written from an `unsigned int`,
and the first window as literals. -/
def first_state (index : delta_index) (trg : Bytes) (max_size : Nat) : delta_state where
  out := hdr_bytes (index.src_buf.length % 2 ^ 32) ++ hdr_bytes (trg.length % 2 ^ 32) ++
    0 :: trg.take RABIN_WINDOW
  outsize := if max_size ≠ 0 ∧ max_size ≤ 8192 then max_size + MAX_OP_SIZE + 1 else 8192
  data := (trg.take RABIN_WINDOW).length
  val := rabin (trg.take RABIN_WINDOW)
  inscnt := (trg.take RABIN_WINDOW).length
  moff := 0
  msize := 0

def create_delta (index : delta_index) (trg_buf : Bytes) (max_size : Nat) : created :=
  if trg_buf = [] then .null
  else create_delta_loop index trg_buf max_size trg_buf.length (first_state index trg_buf max_size)

/-- `diff_delta` of `delta.h` -/
def diff_delta (src_buf trg_buf : Bytes) (max_delta_size : Nat) : created :=
  match create_delta_index src_buf with
  | some index => create_delta index trg_buf max_delta_size
  | none => .null

end git.delta
