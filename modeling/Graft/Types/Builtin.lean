import Graft.Types.Context

/-!
# Built-in contexts

Correspondences that every configuration may name. The spellings are canonical already.
-/

namespace Graft.TypeContext

def ofSpellings (es : List (String × String)) : TypeContext :=
  ofEntries (es.map fun (f, h) => (⟨f⟩, .ofText h))

def basic : TypeContext :=
  ofSpellings
    [("i8", "Int8"), ("i16", "Int16"), ("i32", "Int32"), ("i64", "Int64"), ("isize", "Int"),
     ("u8", "Word8"), ("u16", "Word16"), ("u32", "Word32"), ("u64", "Word64"),
     ("usize", "Word"), ("f32", "Float"), ("f64", "Double"), ("bool", "CBool"),
     ("char", "Char"), ("()", "()"), ("*const c_char", "CString"),
     ("*const std::os::raw::c_char", "CString"), ("*const core::ffi::c_char", "CString")]

def cTypes : List (String × String) :=
  [("c_char", "CChar"), ("c_schar", "CSChar"), ("c_uchar", "CUChar"), ("c_short", "CShort"),
   ("c_ushort", "CUShort"), ("c_int", "CInt"), ("c_uint", "CUInt"), ("c_long", "CLong"),
   ("c_ulong", "CULong"), ("c_longlong", "CLLong"), ("c_ulonglong", "CULLong"),
   ("c_float", "CFloat"), ("c_double", "CDouble"), ("c_void", "()")]

def libc : TypeContext :=
  ofSpellings ((["", "std::os::raw::", "core::ffi::", "libc::"].flatMap fun path =>
    cTypes.map fun (name, host) => (path ++ name, host)) ++
    [("libc::size_t", "CSize"), ("libc::ssize_t", "CSsize")])

def pointers : TypeContext := ofRule .pointers

def functions : TypeContext := ofRule .functionPointers

/-- What is active where nothing else is said. -/
def prelude : TypeContext := basic.extend pointers

def builtins : List (String × TypeContext) :=
  [("basic", basic), ("libc", libc), ("pointers", pointers), ("functions", functions),
   ("prelude", prelude)]

def builtin? (name : String) : Option TypeContext := builtins.lookup name

end Graft.TypeContext
