/-!
# Kinds of values

Every value has a kind, which is what remains of its type when the value is stored among others.
Values of one kind can be compared, and a value can be asked for under its kind. A kind is shown
to the user by its label.
-/

namespace PositionalRecord

/-- The integer formats: signed and unsigned ones of a width in bits, and the one of positions. -/
inductive IntFormat
  | i8 | i16 | i32 | i64 | i128
  | u8 | u16 | u32 | u64 | u128 | index
deriving DecidableEq

def IntFormat.label : IntFormat → String
  | .i8 => "i8"
  | .i16 => "i16"
  | .i32 => "i32"
  | .i64 => "i64"
  | .i128 => "i128"
  | .u8 => "u8"
  | .u16 => "u16"
  | .u32 => "u32"
  | .u64 => "u64"
  | .u128 => "u128"
  | .index => "usize"

/-- A type of the user's own with a single value, a token: the name of the type, and what is shown
of the token. -/
structure TokenType where
  name : String
  shown : String
deriving DecidableEq

/-- The kinds. A `slice` is a text that is borrowed, a `string` one that is owned; a `boxed` value
holds another value. -/
inductive Kind
  | unit | bool | char | int (format : IntFormat) | float
  | slice | string | ints | optInt | token (type : TokenType) | refusal
  | boxed | list | pair | option | constant
  | row | constants | record | pending
deriving DecidableEq

def Kind.label : Kind → String
  | .unit => "()"
  | .bool => "bool"
  | .char => "char"
  | .int format => format.label
  | .float => "f64"
  | .slice => "&str"
  | .string => "alloc::string::String"
  | .ints => "alloc::vec::Vec<i64>"
  | .optInt => "core::option::Option<i64>"
  | .token type => type.name
  | .refusal => "anon_records::error::Error"
  | .boxed => "anon_records::value::Value"
  | .list => "alloc::vec::Vec<anon_records::value::Value>"
  | .pair => "(anon_records::value::Value, anon_records::value::Value)"
  | .option => "core::option::Option<anon_records::value::Value>"
  | .constant => "anon_records::constant::K<anon_records::value::Value>"
  | .row => "anon_records::canonical::Canonical<anon_records::value::Value>"
  | .constants =>
    "anon_records::canonical::Canonical<anon_records::constant::K<anon_records::value::Value>>"
  | .record => "anon_records::record::Record<anon_records::value::Value>"
  | .pending => "anon_records::diff::Diff<anon_records::value::Value>"

end PositionalRecord
