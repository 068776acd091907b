/-
The table of builtin functions, `builtins.cpp`.

The compiler turns a call of one of these names into `CALL_BUILTIN` with the
name's position in the table, and the position is what the VM looks up.  The
functions themselves live in the standard library and are a parameter of the
VM.
-/
import Mathlib.Logic.Basic

namespace Look

/-- `builtin_names()`. -/
def builtinNames : List String :=
  ["print", "write", "count", "push", "pop", "str", "int", "float", "bool", "string", "is_null",
   "is_int", "is_float", "is_string", "is_bool", "is_array", "send", "receive", "close",
   "chan_size", "json_encode", "json_decode", "route", "json::encode", "json::decode",
   "response::status", "response::header", "response::redirect", "request::method",
   "request::get", "request::post", "request::json", "request::body", "request::path",
   "request::ip", "request::param", "request::all", "db::query", "db::exec", "db::last_id",
   "db::affected", "db::col", "db::close", "log::info", "log::warn", "log::error", "log::debug",
   "log::query", "session::start", "session::get", "session::set", "session::destroy",
   "session::regenerate", "cookie::get", "cookie::set", "cookie::delete", "cookie::has",
   "db::connect", "channel", "env", "config", "date::now", "date::today", "date::format",
   "date::parse", "date::add", "date::sub", "date::diff", "date::from_timestamp",
   "date::is_valid", "date::weekday", "string::upper", "string::lower", "string::trim",
   "string::replace", "string::contains", "string::substr", "string::split", "string::join",
   "string::len", "string::starts_with", "string::ends_with", "string::reverse", "string::repeat",
   "string::index_of", "string::pad_left", "string::pad_right", "string::slugify",
   "string::random", "string::ltrim", "string::rtrim", "auth::hash", "auth::verify",
   "validator::required", "validator::email", "validator::integer", "validator::numeric",
   "validator::min", "validator::max", "html::escape", "html::attr", "html::strip", "math::abs",
   "math::floor", "math::ceil", "date::week", "date::timestamp", "file::read", "file::put",
   "file::append", "file::exists", "file::remove", "file::size", "file::store", "file::list",
   "http::get", "http::post", "http::put", "http::delete", "http::patch", "template::render",
   "template::include", "template::block", "template::extends", "cache::get", "cache::set",
   "cache::has", "cache::delete", "cache::flush", "queue::push", "queue::pop", "queue::size",
   "mail::send", "mail::deliver_maildir", "crypto::sha256", "crypto::random_bytes",
   "parallel::active", "parallel::wait", "parallel::limit", "parallel::at_capacity", "error::new",
   "error::is", "error::message", "error::code", "response::json", "before_route", "stop",
   "strlen", "abs", "max", "min", "sqrt", "strtoupper", "strtolower", "request::header",
   "request::headers", "response::error", "app::set", "app::get", "app::has", "app::db",
   "response::text", "response::html", "array::map", "array::filter", "array::reduce",
   "array::find", "array::keys", "array::values", "array::sort", "array::reverse", "array::slice",
   "array::contains", "array::unique", "array::flatten", "array::chunk", "array::zip",
   "array::all", "array::any", "array::push", "array::pop", "array::set", "array::new_assoc",
   "join", "math::round", "math::pow", "math::sqrt", "math::min", "math::max", "math::sin",
   "math::cos", "math::tan", "math::log", "math::pi", "math::random", "string::format",
   "string::regex_match", "string::regex_replace", "string::regex_match_all", "string::decode",
   "type::is_null", "type::is_int", "type::is_float", "type::is_string", "type::is_bool",
   "type::is_array", "type::is_function", "type::of", "type::to_int", "type::to_float",
   "type::to_string", "type::to_bool", "crypto::base64_encode", "crypto::base64_decode",
   "crypto::base64url_encode", "crypto::base64url_decode", "crypto::hex_encode",
   "crypto::hex_decode", "crypto::hmac_sha256", "crypto::hmac_sha256_raw",
   "crypto::constant_compare", "crypto::random_string", "crypto::uuid", "crypto::rs256_sign",
   "crypto::rs256_sign_b64url", "crypto::rs256_verify", "request::is_get", "request::is_post",
   "request::is_put", "request::is_delete", "request::is_head", "request::is_options",
   "request::is_patch", "request::file", "db::transaction", "db::begin", "db::commit",
   "db::rollback", "db::escape", "exit", "die", "cache::keys", "cache::size", "queue::clear",
   "queue::names", "queue::peek", "template::escape", "template::render_string",
   "validator::check", "log::configure", "log::memory", "http::post_json", "http::stream",
   "mail::provider", "mail::send_html", "file::upload_dir", "route::matched", "route::param",
   "runtime::gc", "runtime::stats", "look::check", "jobs::push", "jobs::next", "jobs::done",
   "jobs::fail", "jobs::failed", "jobs::list", "jobs::stats", "jobs::retry", "jobs::purge",
   "jobs::recover", "session::has", "route::group", "args", "db::driver", "date::mono_us"]

/-- `builtin_index(name)`, or `none` for the source's -1. -/
def builtinIndex (name : String) : Option Nat := builtinNames.findIdx? (· = name)

/-- The name holds the two characters `::`. -/
def hasScope : List Char → Bool
  | ':' :: ':' :: _ => true
  | _ :: rest => hasScope rest
  | [] => false

/-- `is_reserved_builtin`: the entries of the table that are written without a
module. -/
def isReservedBuiltin (name : String) : Bool :=
  builtinNames.contains name && !hasScope name.toList

/-- The row `BuiltinEffect::Pure` of `effect_rows()`. -/
def pureBuiltins : List String :=
  ["count", "str", "int", "float", "bool", "string", "is_null", "is_int", "is_float", "is_string",
   "is_bool", "is_array", "json_encode", "strlen", "abs", "max", "min", "sqrt", "strtoupper",
   "strtolower", "join", "array::keys", "array::values", "array::reverse", "array::slice",
   "array::contains", "array::unique", "array::flatten", "array::chunk", "array::zip",
   "array::push", "array::pop", "array::set", "array::new_assoc", "auth::verify",
   "crypto::sha256", "crypto::base64_encode", "crypto::base64url_encode", "crypto::hex_encode",
   "crypto::hmac_sha256", "crypto::hmac_sha256_raw", "crypto::constant_compare", "date::format",
   "date::add", "date::sub", "date::diff", "date::from_timestamp", "date::is_valid",
   "date::weekday", "date::week", "error::new", "error::is", "error::message", "error::code",
   "html::escape", "html::attr", "html::strip", "json::encode", "math::abs", "math::floor",
   "math::ceil", "math::round", "math::pow", "math::sqrt", "math::min", "math::max", "math::sin",
   "math::cos", "math::tan", "math::log", "math::pi", "string::upper", "string::lower",
   "string::trim", "string::replace", "string::contains", "string::substr", "string::split",
   "string::join", "string::len", "string::starts_with", "string::ends_with", "string::reverse",
   "string::repeat", "string::index_of", "string::pad_left", "string::pad_right",
   "string::slugify", "string::ltrim", "string::rtrim", "string::format", "template::escape",
   "type::is_null", "type::is_int", "type::is_float", "type::is_string", "type::is_bool",
   "type::is_array", "type::is_function", "type::of", "type::to_int", "type::to_float",
   "type::to_string", "type::to_bool", "validator::required", "validator::email",
   "validator::integer", "validator::numeric", "validator::min", "validator::max",
   "validator::check"]

/-- `is_pure_builtin`. -/
def isPureBuiltin (full : String) : Bool := pureBuiltins.contains full

/-- `unused_result_message`. -/
def unusedResultMessage (full : String) (line : Nat) : String :=
  let at_ := if 0 < line then "line " ++ toString line ++ ": " else ""
  let arr := "array::".isPrefixOf full
  let returnsArray := arr && full ≠ "array::pop" && full ≠ "array::contains"
  let why :=
    if returnsArray then
      full ++ "() returns a new array and does not change the one you pass"
    else if arr then
      full ++ "() returns a value and does not change the array you pass"
    else
      full ++ "() returns a value and has no other effect"
  at_ ++ "the result of " ++ full ++ "() is not used — " ++ why ++
    ". Assign the result, e.g. $x = " ++ full ++ "(...)"

/-- `BUILTIN_ALIAS` of `compile_call`: global functions of the interpreter that
the VM has under another name. -/
def builtinAlias (name : String) : String :=
  match name with
  | "len" => "count"
  | "intval" => "int"
  | "floatval" => "float"
  | "strval" => "string"
  | "boolval" => "bool"
  | "json" => "json::encode"
  | "header" => "response::header"
  | "redirect" => "response::redirect"
  | other => other

theorem builtinIndex_lt {name : String} {i : Nat} (h : builtinIndex name = some i) :
    i < builtinNames.length := by
  unfold builtinIndex at h
  exact (List.findIdx?_eq_some_iff_getElem.mp h).1

set_option maxRecDepth 2000 in
theorem builtinNames_length : builtinNames.length = 276 := rfl

end Look
