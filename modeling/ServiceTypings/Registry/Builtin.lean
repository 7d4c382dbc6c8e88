import ServiceTypings.Registry

/-! The registry known from the start: the advanced services, each with the names its tokens begin with,
and the tokens whose declared shape is of no use. -/

namespace ServiceTypings.Registry

/-- The address below which the definition file of each service is found. -/
def definitionsAddress : String :=
  "https://script.google.com/macros/autocomplete/dep/apiary"

/-- A service with the names its tokens begin with and its place below `definitionsAddress`. -/
def service (id inner abbreviated place : String) : Definition :=
  ⟨id, some inner, some abbreviated, definitionsAddress ++ "/" ++ place⟩

def builtinDefinitions : List Definition := [
  service "AdSense" "Adsense_v1_4" "Adsense.V1_4." "adsense/v1.4",
  service "AdminDirectory" "Admin_directory_v1" "Admin.Directory_v1." "admin/directory_v1",
  service "AdminReports" "Admin_reports_v1" "Admin.Reports_v1." "admin/reports_v1",
  service "AnalyticsReporting" "Analyticsreporting_v4" "Analyticsreporting.V4." "analyticsreporting/v4",
  service "Area120Tables" "Area120tables_v1alpha1" "Area120tables.V1alpha1." "area120tables/v1alpha1",
  service "BigQuery" "Bigquery_v2" "Bigquery.V2." "bigquery/v2",
  service "Calendar" "Calendar_v3" "Calendar.V3." "calendar/v3",
  service "DoubleClickCampaigns" "Dfareporting_v3_4" "Dfareporting.V3_4." "dfareporting/v3.4",
  service "ShoppingContent" "Content_v2" "Content.V2." "content/v2",
  service "Drive" "Drive_v2" "Drive.V2." "drive/v2",
  service "DriveActivity" "Driveactivity_v2" "Driveactivity.V2." "driveactivity/v2",
  service "AdminLicenseManager" "Licensing_v1" "Licensing.V1." "licensing/v1",
  service "Gmail" "Gmail_v1" "Gmail.V1." "gmail/v1",
  service "Analytics" "Analytics_v3" "Analytics.V3." "analytics/v3",
  service "Classroom" "Classroom_v1" "Classroom.V1." "classroom/v1",
  service "Docs" "Docs_v1" "Docs.V1." "docs/v1",
  service "Sheets" "Sheets_v4" "Sheets.V4." "sheets/v4",
  service "Slides" "Slides_v1" "Slides.V1." "slides/v1",
  service "AdminReseller" "Reseller_v1" "Reseller.V1." "reseller/v1",
  service "AdminGroupsMigration" "Groupsmigration_v1" "Groupsmigration.V1." "groupsmigration/v1",
  service "AdminGroupsSettings" "Groupssettings_v1" "Groupssettings.V1." "groupssettings/v1",
  ⟨"Mirror", none, none, definitionsAddress ++ "/mirror/v1"⟩,
  service "People" "Peopleapi_v1" "Peopleapi.V1." "peopleapi/v1",
  service "TagManager" "Tagmanager_v2" "Tagmanager.V2." "tagmanager/v2",
  service "Tasks" "Tasks_v1" "Tasks.V1." "tasks/v1",
  service "YouTubeAnalytics" "YoutubeAnalytics_v2" "YoutubeAnalytics.V2." "youtubeAnalytics/v2",
  service "YouTubeContentId" "YoutubePartner_v1" "YoutubePartner.V1." "youtubePartner/v1",
  service "YouTube" "Youtube_v3" "Youtube.V3." "youtube/v3"]

def builtinIrregular : List (String × String) := [
  ("Bigquery_v2.Bigquery.V2.Schema.JsonValue", "any"),
  ("Bigquery.V2.Schema.JsonValue", "any"),
  ("Classroom_v1.Classroom.V1.Schema.Empty", "void"),
  ("Classroom.V1.Schema.Empty", "void"),
  ("Peopleapi_v1.Peopleapi.V1.Schema.Empty", "void"),
  ("Peopleapi.V1.Schema.Empty", "void")]

def builtin : Registry :=
  ⟨builtinDefinitions, builtinIrregular⟩

theorem builtin_ids_nodup : (builtin.definitions.map Definition.id).Nodup := by
  decide

end ServiceTypings.Registry
