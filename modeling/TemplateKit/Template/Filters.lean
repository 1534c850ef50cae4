import TemplateKit.Escape.Script
import TemplateKit.Html.FromText
import TemplateKit.Html.Strip
import TemplateKit.Template.Function

/-!
# Filters for web pages
-/

namespace TemplateKit.Function

def filter (name : Bytes) (escaping : Bool) (f : Bytes → Bytes) : Function :=
  ⟨name, 1, escaping, .filter f⟩

/-- The functions that pages of a request can use besides the others. -/
def filters : List Function :=
  [ filter "url_escape" true (Url.query.escape []),
    filter "url_escape_rfc2396" true (Url.queryStrict.escape []),
    filter "html_escape" true Html.escape,
    filter "text_html" false Html.page,
    filter "js_escape" true Script.escape,
    filter "json_escape" true Script.escapeJson,
    filter "html_strip" false Html.strip,
    filter "url_validate" true Url.validateHtml,
    filter "css_url_validate" true Url.validateStyle,
    filter "null_escape" true id ]

end TemplateKit.Function
